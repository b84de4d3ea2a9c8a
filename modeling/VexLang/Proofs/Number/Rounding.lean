import VexLang.Proofs.Number.Shortest

/-!
# Correct rounding

`Magnitude.nearest` picks, among all magnitudes, the one at the least distance from a fraction,
and of two such magnitudes the even one. In this comparison `infinity` counts with the value of
its place on the scale, which is `2 ^ 1024`. A decimal is read as the magnitude nearest to its
exact value, also where its exponent alone decides.
-/

namespace VexLang

def distance (a b : Nat) : Nat :=
  (a - b) + (b - a)

/-- A multiple of `den` is one of the two neighbours of `num` or lies beyond them. -/
theorem mul_cases (num den k : Nat) :
    (k = num / den ∧ k * den = num / den * den) ∨
      (k = num / den + 1 ∧ k * den = num / den * den + den) ∨
      (k < num / den ∧ k * den + den ≤ num / den * den) ∨
      (num / den + 1 < k ∧ num / den * den + 2 * den ≤ k * den) := by
  rcases Nat.lt_trichotomy k (num / den) with h | rfl | h
  · have hle := Nat.mul_le_mul_right den (Nat.succ_le_of_lt h)
    rw [Nat.succ_mul] at hle
    exact .inr (.inr (.inl ⟨h, hle⟩))
  · exact .inl ⟨rfl, rfl⟩
  · rcases Nat.eq_or_lt_of_le (Nat.succ_le_of_lt h) with rfl | h
    · exact .inr (.inl ⟨rfl, Nat.succ_mul ..⟩)
    · have hle := Nat.mul_le_mul_right den (Nat.succ_le_of_lt h)
      rw [Nat.succ_mul, Nat.succ_mul] at hle
      omega

theorem roundHalfEven_cases (num den : Nat) :
    (roundHalfEven num den = num / den ∧ 2 * (num % den) < den) ∨
      (roundHalfEven num den = num / den + 1 ∧ den < 2 * (num % den)) ∨
      2 * (num % den) = den ∧ roundHalfEven num den % 2 = 0 ∧
        (roundHalfEven num den = num / den ∨ roundHalfEven num den = num / den + 1) := by
  simp only [roundHalfEven]
  split
  · omega
  · split <;> omega

/-- No multiple is nearer than the rounded quotient, which is even if another one is as near. -/
theorem distance_roundHalfEven (num : Nat) {den : Nat} (hden : 0 < den) (k : Nat) :
    distance (roundHalfEven num den * den) num ≤ distance (k * den) num ∧
      (k ≠ roundHalfEven num den →
        distance (k * den) num = distance (roundHalfEven num den * den) num →
        roundHalfEven num den % 2 = 0) := by
  have hnum := Nat.div_add_mod' num den
  have hmod := Nat.mod_lt num hden
  have hr := roundHalfEven_cases num den
  have hmul := mul_cases num den (roundHalfEven num den)
  have hk := mul_cases num den k
  simp only [distance]
  generalize roundHalfEven num den = r at hr hmul
  generalize r * den = rounded at *
  generalize k * den = multiple at *
  generalize num / den * den = below at *
  rcases hr with ⟨hr, hlow⟩ | ⟨hr, hhigh⟩ | ⟨hhalf, heven, hr⟩ <;> omega

namespace Magnitude

/-- The magnitude nearest to `num / den` units is at `position`. -/
structure IsNearest (num den position : Nat) : Prop where
  le_infinity : position ≤ infinity
  least : ∀ q ≤ infinity, distance (units position * den) num ≤ distance (units q * den) num
  even : ∀ q ≤ infinity, units q ≠ units position →
    distance (units q * den) num = distance (units position * den) num → position % 2 = 0

/-- A mantissa of 53 binary digits, or a smaller one that is not shifted, or the first number
with 54 binary digits. -/
theorem units_shifted {s r : Nat} (hlow : s = 0 ∨ 2 ^ 52 ≤ r) (hhigh : r ≤ 2 ^ 53) :
    units (s * mantissas + r) = r * 2 ^ s := by
  have hM : mantissas = 2 ^ 52 := rfl
  have hdiv : (s * mantissas + r) / mantissas = s + r / mantissas := by
    rw [Nat.add_comm, Nat.add_mul_div_right _ _ (by omega), Nat.add_comm]
  rcases Nat.eq_or_lt_of_le hhigh with rfl | hlt
  · have hshift : shift (s * mantissas + 2 ^ 53) = s + 1 := by
      rw [shift, hdiv, hM]
      rfl
    have hrest : s * mantissas + 2 ^ 53 - (s + 1) * mantissas = 2 ^ 52 := by
      rw [Nat.succ_mul]
      omega
    rw [units, hshift, hrest, Nat.pow_eq, Nat.pow_succ]
    omega
  · have hshift : shift (s * mantissas + r) = s := by
      rw [shift, hdiv, hM]
      omega
    rw [units, hshift, Nat.add_sub_cancel_left, Nat.pow_eq]

/-- The values of magnitudes that are no multiples of a power of two lie below those with 53
binary digits more. -/
theorem units_multiple_or_lt (q s : Nat) :
    (∃ k, units q = k * 2 ^ s) ∨ units q < 2 ^ 52 * 2 ^ s ∧ 0 < s := by
  rcases Nat.eq_zero_or_pos s with rfl | hs
  · exact .inl ⟨units q, (Nat.mul_one _).symm⟩
  · rcases units_cases q with ⟨-, hlt⟩ | ⟨m, -, hm, hunits, -⟩
    · exact .inr ⟨Nat.lt_of_lt_of_le hlt (Nat.le_mul_of_pos_right _ (Nat.two_pow_pos s)), hs⟩
    · by_cases hle : s ≤ shift q
      · refine .inl ⟨m * 2 ^ (shift q - s), ?_⟩
        rw [hunits, Nat.mul_assoc, ← Nat.pow_add, Nat.sub_add_cancel hle]
      · refine .inr ⟨?_, hs⟩
        have hpow : 2 ^ 52 * 2 ^ s = 2 ^ 53 * 2 ^ (s - 1) := by
          rw [← Nat.pow_add, ← Nat.pow_add]
          congr 1
          omega
        rw [hunits, hpow]
        calc m * 2 ^ shift q
          _ < 2 ^ 53 * 2 ^ shift q := Nat.mul_lt_mul_of_pos_right hm (Nat.two_pow_pos _)
          _ ≤ 2 ^ 53 * 2 ^ (s - 1) :=
            Nat.mul_le_mul_left _ (Nat.pow_le_pow_right (by omega) (by omega))

/-- Magnitudes up to the first one with the shift `s` have values up to that one. -/
theorem units_le {q s : Nat} (h : q ≤ (s + 1) * mantissas) : units q ≤ 2 ^ 52 * 2 ^ s := by
  have hM : mantissas = 2 ^ 52 := rfl
  rcases units_cases q with ⟨-, hlt⟩ | ⟨m, hlow, hhigh, hunits, hq⟩
  · exact Nat.le_trans (Nat.le_of_lt hlt) (Nat.le_mul_of_pos_right _ (Nat.two_pow_pos _))
  · rw [Nat.succ_mul] at h
    rw [hunits]
    rcases Nat.lt_trichotomy (shift q) s with hless | rfl | hmore
    · calc m * 2 ^ shift q
        _ ≤ 2 ^ 53 * 2 ^ (s - 1) :=
          Nat.mul_le_mul (Nat.le_of_lt hhigh) (Nat.pow_le_pow_right (by omega) (by omega))
        _ = 2 ^ 52 * 2 ^ s := by
          rw [← Nat.pow_add, ← Nat.pow_add]
          congr 1
          omega
    · exact Nat.mul_le_mul_right _ (by omega)
    · have hbeyond := Nat.mul_le_mul_right mantissas (Nat.succ_le_of_lt hmore)
      rw [Nat.succ_mul] at hbeyond
      omega

/-- The scaled quotient has at most 53 binary digits. -/
theorem scaled_lt (num den : Nat) : num / (den * 2 ^ shiftFor num den) < 2 ^ 53 := by
  rw [← Nat.div_div_eq_div_mul, Nat.div_lt_iff_lt_mul (Nat.two_pow_pos _), ← Nat.pow_add]
  refine Nat.lt_of_lt_of_le Nat.lt_log2_self (Nat.pow_le_pow_right (by omega) ?_)
  rw [shiftFor]
  omega

/-- If there is a shift, the scaled quotient has no fewer than 53 binary digits. -/
theorem le_scaled {num den : Nat} (hshift : 0 < shiftFor num den) :
    2 ^ 52 * 2 ^ shiftFor num den ≤ num / den := by
  rw [shiftFor] at hshift ⊢
  have hne : num / den ≠ 0 := by
    intro hzero
    rw [hzero, Nat.log2_zero] at hshift
    omega
  rw [← Nat.pow_add, ← Nat.le_log2 hne]
  omega

theorem roundHalfEven_bounds (num den : Nat) :
    (shiftFor num den = 0 ∨ 2 ^ 52 ≤ roundHalfEven num (den * 2 ^ shiftFor num den)) ∧
      roundHalfEven num (den * 2 ^ shiftFor num den) ≤ 2 ^ 53 := by
  have hlt := scaled_lt num den
  have hr := roundHalfEven_cases num (den * 2 ^ shiftFor num den)
  refine ⟨?_, by omega⟩
  rcases Nat.eq_zero_or_pos (shiftFor num den) with hzero | hpos
  · exact .inl hzero
  · have hle := le_scaled hpos
    rw [← Nat.le_div_iff_mul_le (Nat.two_pow_pos _), Nat.div_div_eq_div_mul] at hle
    omega

/-- The position before it is cut off at `infinity` is at the least distance from the fraction. -/
theorem distance_shifted {num den : Nat} (hden : 0 < den) (q : Nat) :
    let position := shiftFor num den * mantissas +
      roundHalfEven num (den * 2 ^ shiftFor num den)
    distance (units position * den) num ≤ distance (units q * den) num ∧
      (units q ≠ units position →
        distance (units q * den) num = distance (units position * den) num →
        position % 2 = 0) := by
  intro position
  obtain ⟨hlow, hhigh⟩ := roundHalfEven_bounds num den
  have hunits : units position * den =
      roundHalfEven num (den * 2 ^ shiftFor num den) * (den * 2 ^ shiftFor num den) := by
    rw [units_shifted hlow hhigh, Nat.mul_assoc, Nat.mul_comm (2 ^ _)]
  have hparity : position % 2 = roundHalfEven num (den * 2 ^ shiftFor num den) % 2 := by
    have hM : shiftFor num den * mantissas = 2 * (shiftFor num den * 2 ^ 51) := by
      rw [Nat.mul_left_comm]
      rfl
    omega
  have hpos : 0 < den * 2 ^ shiftFor num den := Nat.mul_pos hden (Nat.two_pow_pos _)
  rw [hunits]
  rcases units_multiple_or_lt q (shiftFor num den) with ⟨k, hk⟩ | ⟨hlt, hshift⟩
  · -- both are multiples of the step between neighbours
    obtain ⟨hleast, heven⟩ := distance_roundHalfEven num hpos k
    have hq : units q * den = k * (den * 2 ^ shiftFor num den) := by
      rw [hk, Nat.mul_assoc, Nat.mul_comm (2 ^ _)]
    rw [hq, hparity]
    refine ⟨hleast, fun hne hsame ↦ ?_⟩
    apply heven _ hsame
    rintro rfl
    exact hne (hk.trans (units_shifted hlow hhigh).symm)
  · -- the first number with as many digits as the fraction lies between the other and it
    have hfirst := (distance_roundHalfEven num hpos (2 ^ 52)).1
    have hbetween : 2 ^ 52 * 2 ^ shiftFor num den * den ≤ num :=
      (Nat.le_div_iff_mul_le hden).mp (le_scaled hshift)
    have hbelow : units q * den < 2 ^ 52 * 2 ^ shiftFor num den * den :=
      Nat.mul_lt_mul_of_pos_right hlt hden
    have hcomm : 2 ^ 52 * (den * 2 ^ shiftFor num den) =
        2 ^ 52 * 2 ^ shiftFor num den * den := by
      rw [Nat.mul_assoc, Nat.mul_comm den]
    rw [hcomm] at hfirst
    simp only [distance] at hfirst ⊢
    omega

theorem exists_shift_infinity :
    ∃ s, 0 < s ∧ infinity = (s + 1) * mantissas ∧ units infinity = 2 ^ 52 * 2 ^ s := by
  obtain ⟨s, hpos, hs⟩ : ∃ s, 0 < s ∧ infinity = s * mantissas + 2 ^ 52 :=
    ⟨2046, by omega, rfl⟩
  refine ⟨s, hpos, ?_, ?_⟩
  · rw [hs, Nat.succ_mul]
    rfl
  · rw [hs]
    exact units_shifted (.inr (Nat.le_refl _)) (by omega)

/-- Beyond the scale, `infinity` is the nearest magnitude. -/
theorem isNearest_infinity {num den : Nat} (h : units infinity * den ≤ num) :
    IsNearest num den infinity := by
  obtain ⟨s, -, hinfinity, hunits⟩ := exists_shift_infinity
  refine ⟨Nat.le_refl _, fun q hq ↦ ?_, fun _ _ _ _ ↦ rfl⟩
  have hle : units q * den ≤ units infinity * den := by
    apply Nat.mul_le_mul_right
    rw [hunits]
    exact units_le (hinfinity ▸ hq)
  simp only [distance]
  omega

theorem isNearest_nearest (num : Nat) {den : Nat} (hden : 0 < den) :
    IsNearest num den (nearest num den) := by
  obtain ⟨-, hhigh⟩ := roundHalfEven_bounds num den
  by_cases hcut : shiftFor num den * mantissas +
      roundHalfEven num (den * 2 ^ shiftFor num den) ≤ infinity
  · have hnearest : nearest num den = shiftFor num den * mantissas +
        roundHalfEven num (den * 2 ^ shiftFor num den) := Nat.min_eq_right hcut
    rw [hnearest]
    exact ⟨hcut, fun q _ ↦ (distance_shifted hden q).1, fun q _ ↦ (distance_shifted hden q).2⟩
  · have hnearest : nearest num den = infinity := Nat.min_eq_left (Nat.le_of_not_le hcut)
    rw [hnearest]
    apply isNearest_infinity
    -- the shift is at least the one of `infinity`
    obtain ⟨s, hpos, hinfinity, hunits⟩ := exists_shift_infinity
    have hshift : s ≤ shiftFor num den := by
      by_contra hless
      have hM : mantissas = 2 ^ 52 := rfl
      have hle := Nat.mul_le_mul_right mantissas (Nat.lt_of_not_le hless)
      rw [Nat.succ_mul] at hle hinfinity
      omega
    rw [hunits, ← Nat.le_div_iff_mul_le hden]
    calc 2 ^ 52 * 2 ^ s
      _ ≤ 2 ^ 52 * 2 ^ shiftFor num den :=
        Nat.mul_le_mul_left _ (Nat.pow_le_pow_right (by omega) hshift)
      _ ≤ num / den := le_scaled (by omega)

end Magnitude

namespace Decimal

/-- The magnitude nearest to the exact value. -/
def rounded (d : Decimal) : Nat :=
  Magnitude.nearest (d.fraction.1 * Magnitude.unitsPerOne) d.fraction.2

theorem fraction_pos (d : Decimal) : 0 < d.fraction.2 := by
  rw [fraction_eq]
  exact Nat.pow_pos (by omega)

theorem isNearest_rounded (d : Decimal) :
    Magnitude.IsNearest (d.fraction.1 * Magnitude.unitsPerOne) d.fraction.2 d.rounded :=
  Magnitude.isNearest_nearest _ d.fraction_pos

/-- Powers of ten from `10 ^ 310` on are beyond the scale. -/
theorem rounded_eq_infinity {d : Decimal} (hne : d.digits ≠ 0) (h : exponentCeiling < d.exponent) :
    d.rounded = Magnitude.infinity := by
  have hexponent : 311 ≤ d.exponent := h
  have hneg : (-d.exponent).toNat = 0 := by omega
  have hlarge : 10 ^ (d.exponent.toNat + 0) ≤ d.digits * 10 ^ d.exponent.toNat :=
    Nat.le_mul_of_pos_left _ (Nat.pos_of_ne_zero hne)
  rw [rounded, fraction_eq, hneg]
  exact Magnitude.nearest_eq_infinity_of_le (by omega) hlarge

/-- Values below `10 ^ (-330)` are nearest to zero. -/
theorem rounded_eq_zero {d : Decimal} {places : Nat} (hdigits : d.digits < 10 ^ places)
    (h : d.exponent + places < valueFloor) : d.rounded = 0 := by
  have hexponent : d.exponent + places < -330 := h
  have hnat : d.exponent.toNat = 0 := by omega
  obtain ⟨more, hmore⟩ := Nat.exists_eq_add_of_le (by omega : places ≤ (-d.exponent).toNat)
  have hsmall : d.digits * 10 ^ (0 + more) < 10 ^ (-d.exponent).toNat := by
    rw [hmore, Nat.zero_add, Nat.pow_add]
    exact Nat.mul_lt_mul_of_pos_right hdigits (Nat.pow_pos (by omega))
  rw [rounded, fraction_eq, hnat]
  exact Magnitude.nearest_eq_zero_of_lt (by omega) hsmall

/-- What is recognised by its exponent is read as its exact value would be. -/
theorem toMagnitude_eq_rounded (d : Decimal) : d.toMagnitude = d.rounded := by
  rw [toMagnitude]
  split
  case isTrue hzero =>
    rw [rounded, fraction_eq, hzero, Nat.zero_mul, Nat.zero_mul]
    exact (Magnitude.nearest_eq_zero (Nat.pow_pos (by omega))).symm
  case isFalse hne =>
    split
    case isTrue hceiling => exact (rounded_eq_infinity hne hceiling).symm
    case isFalse hceiling =>
      split
      case isTrue hfloor =>
        have hdigits : d.digits < 10 ^ (Nat.log2 d.digits + 1) :=
          Nat.lt_of_lt_of_le Nat.lt_log2_self (two_pow_le_ten_pow (by omega))
        exact (rounded_eq_zero hdigits (by omega)).symm
      case isFalse hfloor => rfl

end Decimal

end VexLang
