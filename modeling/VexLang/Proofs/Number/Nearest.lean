import Mathlib.Algebra.Group.Nat.Defs
import VexLang.Number.Magnitude

/-!
# The nearest magnitude

The nearest magnitude depends on the value of a fraction only, every finite
magnitude is the nearest one to its own value, and values that are too small or
too large go to zero or to `infinity`.
-/

namespace VexLang

theorem roundHalfEven_mul_right (num den : Nat) {c : Nat} (hc : 0 < c) :
    roundHalfEven (num * c) (den * c) = roundHalfEven num den := by
  have htwice : 2 * (num * c % (den * c)) = 2 * (num % den) * c := by
    rw [Nat.mul_mod_mul_right, Nat.mul_assoc]
  simp only [roundHalfEven, Nat.mul_div_mul_right _ _ hc, htwice, Nat.mul_lt_mul_right hc]

theorem roundHalfEven_mul_self (k : Nat) {den : Nat} (hden : 0 < den) :
    roundHalfEven (k * den) den = k := by
  simp [roundHalfEven, Nat.mul_div_cancel _ hden, hden]

namespace Magnitude

theorem nearest_mul_right (num den : Nat) {c : Nat} (hc : 0 < c) :
    nearest (num * c) (den * c) = nearest num den := by
  have hshift : shiftFor (num * c) (den * c) = shiftFor num den := by
    rw [shiftFor, shiftFor, Nat.mul_div_mul_right _ _ hc]
  simp only [nearest, hshift, Nat.mul_right_comm den c, roundHalfEven_mul_right _ _ hc]

/-- Less than half a unit is nearest to zero. -/
theorem nearest_eq_zero {num den : Nat} (h : 2 * num < den) : nearest num den = 0 := by
  have hdiv : num / den = 0 := Nat.div_eq_of_lt (by omega)
  have hmod : num % den = num := Nat.mod_eq_of_lt (by omega)
  have hshift : shiftFor num den = 0 := by simp [shiftFor, hdiv]
  simp [nearest, hshift, roundHalfEven, hdiv, hmod, h]

/-- What has 2100 or more binary digits in units is out of range. -/
theorem nearest_eq_infinity {num den k : Nat} (hk : 2099 ≤ k) (h : 2 ^ k ≤ num / den) :
    nearest num den = infinity := by
  have hpos : 0 < 2 ^ k := Nat.two_pow_pos _
  have hlog : k ≤ (num / den).log2 := (Nat.le_log2 (by omega)).mpr h
  have hshift : 2047 * mantissas ≤ shiftFor num den * mantissas := by
    apply Nat.mul_le_mul_right
    rw [shiftFor]
    omega
  have hinfinity : infinity = 2047 * mantissas := rfl
  rw [nearest]
  omega

/-- A mantissa of 53 binary digits, or a smaller one that is not shifted. -/
theorem units_cases (position : Nat) :
    (shift position = 0 ∧ units position < 2 ^ 52) ∨
      ∃ m, 2 ^ 52 ≤ m ∧ m < 2 ^ 53 ∧ units position = m * 2 ^ shift position ∧
        shift position * mantissas + m = position := by
  have hM : mantissas = 2 ^ 52 := rfl
  by_cases hlow : position < mantissas
  · left
    have hshift : shift position = 0 := by
      rw [shift, Nat.div_eq_of_lt hlow]
    refine ⟨hshift, ?_⟩
    rw [units, hshift]
    simp only [Nat.zero_mul, Nat.sub_zero, Nat.pow_eq, Nat.pow_zero, Nat.mul_one]
    omega
  · right
    have hquot : 1 ≤ position / mantissas := (Nat.one_le_div_iff (by omega)).mpr (by omega)
    have hdiv := Nat.div_add_mod position mantissas
    have hmod : position % mantissas < mantissas := Nat.mod_lt _ (by omega)
    have hshift : shift position * mantissas + mantissas = mantissas * (position / mantissas) := by
      rw [shift, ← Nat.succ_mul, Nat.succ_eq_add_one, Nat.sub_add_cancel hquot, Nat.mul_comm]
    refine ⟨position - shift position * mantissas, by omega, by omega, rfl, by omega⟩

/-- The value of a magnitude has as many binary digits as it is rounded to. -/
theorem shiftFor_units (position : Nat) : shiftFor (units position) 1 = shift position := by
  rw [shiftFor, Nat.div_one]
  rcases units_cases position with ⟨hshift, hlt⟩ | ⟨m, hlow, hhigh, hunits, -⟩
  · rw [hshift]
    by_cases hzero : units position = 0
    · rw [hzero, Nat.log2_zero]
    · have hlog := (Nat.log2_lt hzero).mpr hlt
      omega
  · have hpos : 0 < 2 ^ shift position := Nat.two_pow_pos _
    have hne : m * 2 ^ shift position ≠ 0 := Nat.mul_ne_zero (by omega) (by omega)
    have hlog : (m * 2 ^ shift position).log2 = 52 + shift position := by
      rw [Nat.log2_eq_iff hne]
      constructor
      · rw [Nat.pow_add]
        exact Nat.mul_le_mul_right _ hlow
      · rw [Nat.add_right_comm, Nat.pow_add]
        exact Nat.mul_lt_mul_of_pos_right hhigh hpos
    rw [hunits, hlog]
    omega

/-- Every finite magnitude is the nearest one to its own value. -/
theorem nearest_units {position : Nat} (h : position < infinity) :
    nearest (units position) 1 = position := by
  have hpos : 0 < Nat.pow 2 (shift position) := Nat.two_pow_pos _
  have hround : roundHalfEven (units position) (1 * Nat.pow 2 (shift position)) =
      position - shift position * mantissas := by
    rw [Nat.one_mul, units, roundHalfEven_mul_self _ hpos]
  have hle : shift position * mantissas ≤ position := by
    have hdiv := Nat.div_mul_le_self position mantissas
    have hsub : shift position * mantissas ≤ position / mantissas * mantissas :=
      Nat.mul_le_mul_right _ (Nat.sub_le _ _)
    omega
  rw [nearest, shiftFor_units]
  simp only [hround]
  omega

end Magnitude

end VexLang
