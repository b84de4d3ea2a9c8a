import Mathlib.Tactic.NormNum
import Mathlib.Tactic.Ring
import VexLang.Number.Decimal
import VexLang.Proofs.Number.Nearest

/-!
# The decimal of a magnitude

The decimal that is printed for a magnitude is found by trial and then loses the
zeros at the end of its digits. Both steps keep the magnitude it is read as, and
its point is at most a few hundred places away from its digits.
-/

namespace VexLang

/-- Ninety-three binary digits are fewer than twenty-eight decimal places. -/
theorem two_pow_le_ten_pow {a b : Nat} (h : 28 * a ≤ 93 * b) : 2 ^ a ≤ 10 ^ b := by
  have hbase : (2 : Nat) ^ 93 ≤ 10 ^ 28 := by norm_num
  have hpow : (2 ^ a) ^ 28 ≤ (10 ^ b) ^ 28 := by
    calc (2 ^ a) ^ 28
      _ = 2 ^ (28 * a) := by rw [← Nat.pow_mul, Nat.mul_comm]
      _ ≤ 2 ^ (93 * b) := Nat.pow_le_pow_right (by omega) h
      _ = (2 ^ 93) ^ b := by rw [Nat.pow_mul]
      _ ≤ (10 ^ 28) ^ b := Nat.pow_le_pow_left hbase b
      _ = (10 ^ b) ^ 28 := by rw [← Nat.pow_mul, ← Nat.pow_mul, Nat.mul_comm]
  exact (Nat.pow_le_pow_iff_left (by omega)).mp hpow

namespace Magnitude

/-- The exponent is a variable, so that no proof computes the power. -/
theorem exists_unitsPerOne : ∃ k, k = 1074 ∧ unitsPerOne = 2 ^ k := by
  obtain ⟨k, hk⟩ : ∃ k, k = 1074 := ⟨1074, rfl⟩
  refine ⟨k, hk, ?_⟩
  unfold unitsPerOne
  rw [← hk]
  exact Nat.pow_eq

/-- Values from `10 ^ 310` on are beyond the scale. -/
theorem nearest_eq_infinity_of_le {num places e : Nat} (hplaces : 310 ≤ places)
    (h : 10 ^ (places + e) ≤ num) : nearest (num * unitsPerOne) (10 ^ e) = infinity := by
  obtain ⟨k, hk, hones⟩ := exists_unitsPerOne
  -- the most binary digits that the decimal places are sure to give
  have hbinary : 2 ^ (93 * places / 28) ≤ 10 ^ places := two_pow_le_ten_pow (by omega)
  have hnum : 2 ^ (93 * places / 28) * 10 ^ e ≤ num := by
    rw [Nat.pow_add] at h
    exact Nat.le_trans (Nat.mul_le_mul_right (10 ^ e) hbinary) h
  have hdiv : 2 ^ (93 * places / 28 + k) ≤ num * unitsPerOne / 10 ^ e := by
    rw [Nat.le_div_iff_mul_le (Nat.pow_pos (by omega)), Nat.pow_add, Nat.mul_right_comm, hones]
    exact Nat.mul_le_mul_right (2 ^ k) hnum
  exact nearest_eq_infinity (by omega) hdiv

/-- Values below `10 ^ (-324)` are nearest to zero. -/
theorem nearest_eq_zero_of_lt {digits e places den : Nat} (hplaces : 324 ≤ places)
    (h : digits * 10 ^ (e + places) < den) :
    nearest (digits * 10 ^ e * unitsPerOne) den = 0 := by
  obtain ⟨k, hk, hones⟩ := exists_unitsPerOne
  apply nearest_eq_zero
  calc 2 * (digits * 10 ^ e * unitsPerOne)
    _ = digits * 10 ^ e * 2 ^ (k + 1) := by rw [hones, Nat.mul_left_comm, ← Nat.pow_succ']
    _ ≤ digits * 10 ^ e * 10 ^ places := Nat.mul_le_mul_left _ (two_pow_le_ten_pow (by omega))
    _ = digits * 10 ^ (e + places) := by rw [Nat.mul_assoc, ← Nat.pow_add]
    _ < den := h

end Magnitude

namespace Decimal

/-- Powers of ten on the side of the fraction to which the sign of the exponent puts them. -/
theorem fraction_eq (d : Decimal) :
    d.fraction = (d.digits * 10 ^ d.exponent.toNat, 10 ^ (-d.exponent).toNat) := by
  obtain ⟨digits, exponent⟩ := d
  cases exponent with
  | ofNat e => simp [fraction]
  | negSucc e => simp [fraction, Int.neg_negSucc]

/-- The range outside of which decimals are recognised by their exponents. -/
structure InRange (d : Decimal) : Prop where
  nonzero : d.digits ≠ 0
  ceiling : d.exponent ≤ exponentCeiling
  floor : valueFloor ≤ d.exponent + (Nat.log2 d.digits + 1)

theorem InRange.toMagnitude_eq {d : Decimal} (h : d.InRange) :
    d.toMagnitude = Magnitude.nearest
      (d.digits * 10 ^ d.exponent.toNat * Magnitude.unitsPerOne) (10 ^ (-d.exponent).toNat) := by
  have hceiling := h.ceiling
  have hfloor := h.floor
  rw [toMagnitude, if_neg h.nonzero, if_neg (by omega), if_neg (by omega), fraction_eq]

/-- A decimal that is read as a finite positive magnitude is in range. -/
theorem inRange_of_toMagnitude {d : Decimal} (hpos : 0 < d.toMagnitude)
    (hfinite : d.toMagnitude < Magnitude.infinity) : d.InRange := by
  rw [toMagnitude] at hpos hfinite
  by_cases hzero : d.digits = 0
  · simp [hzero] at hpos
  · rw [if_neg hzero] at hpos hfinite
    by_cases hceiling : exponentCeiling < d.exponent
    · rw [if_pos hceiling] at hfinite
      omega
    · rw [if_neg hceiling] at hpos
      by_cases hfloor : d.exponent + (Nat.log2 d.digits + 1) < valueFloor
      · simp [hfloor] at hpos
      · exact ⟨hzero, by omega, by omega⟩

/-- A finite value is below `10 ^ 310`. -/
theorem InRange.lt_of_finite {d : Decimal} (h : d.InRange)
    (hfinite : d.toMagnitude < Magnitude.infinity) :
    d.digits * 10 ^ d.exponent.toNat < 10 ^ (310 + (-d.exponent).toNat) := by
  by_contra hge
  rw [Nat.not_lt] at hge
  rw [h.toMagnitude_eq, Magnitude.nearest_eq_infinity_of_le (Nat.le_refl 310) hge] at hfinite
  exact Nat.lt_irrefl _ hfinite

/-- A value that is not read as zero is at least `10 ^ (-328)`. -/
theorem InRange.le_of_positive {d : Decimal} (h : d.InRange) (hpos : 0 < d.toMagnitude) :
    10 ^ (-d.exponent).toNat ≤ d.digits * 10 ^ (d.exponent.toNat + 328) := by
  by_contra hlt
  rw [Nat.not_le] at hlt
  rw [h.toMagnitude_eq, Magnitude.nearest_eq_zero_of_lt (by omega) hlt] at hpos
  exact Nat.lt_irrefl _ hpos

/-- A zero at the end of the digits can be moved into the exponent. -/
theorem InRange.tenfold {k : Nat} {e : Int} (h : InRange ⟨k * 10, e⟩)
    (hpos : 0 < toMagnitude ⟨k * 10, e⟩)
    (hfinite : toMagnitude ⟨k * 10, e⟩ < Magnitude.infinity) : InRange ⟨k, e + 1⟩ := by
  have hk : k ≠ 0 := fun hzero ↦ h.nonzero (by simp [hzero])
  have hupper := h.lt_of_finite hfinite
  have hlower := h.le_of_positive hpos
  have hceiling := h.ceiling
  simp only [exponentCeiling] at hupper hlower hceiling
  refine ⟨hk, ?_, ?_⟩
  · by_contra hge
    simp only [exponentCeiling] at hge
    have hle : 1 * 10 ^ e.toNat ≤ k * 10 * 10 ^ e.toNat := Nat.mul_le_mul_right _ (by omega)
    rw [Nat.one_mul] at hle
    have hexponents := (Nat.pow_lt_pow_iff_right (by omega)).mp (Nat.lt_of_le_of_lt hle hupper)
    omega
  · by_contra hlt
    simp only [valueFloor] at hlt
    have hlog : k * 10 < 10 ^ (k.log2 + 1) * 10 := by
      apply Nat.mul_lt_mul_of_pos_right _ (by omega)
      exact Nat.lt_of_lt_of_le Nat.lt_log2_self (two_pow_le_ten_pow (by omega))
    have hchain : 10 ^ (-e).toNat < 10 ^ (k.log2 + 1 + 1 + (e.toNat + 328)) := by
      rw [Nat.pow_add, Nat.pow_succ]
      exact Nat.lt_of_le_of_lt hlower
        (Nat.mul_lt_mul_of_pos_right hlog (Nat.pow_pos (by omega)))
    have hexponents := (Nat.pow_lt_pow_iff_right (by omega)).mp hchain
    omega

theorem toMagnitude_tenfold {k : Nat} {e : Int} (hpos : 0 < toMagnitude ⟨k * 10, e⟩)
    (hfinite : toMagnitude ⟨k * 10, e⟩ < Magnitude.infinity) :
    toMagnitude ⟨k, e + 1⟩ = toMagnitude ⟨k * 10, e⟩ := by
  have hrange := inRange_of_toMagnitude hpos hfinite
  rw [hrange.toMagnitude_eq, (hrange.tenfold hpos hfinite).toMagnitude_eq]
  simp only
  by_cases hsign : 0 ≤ e
  · have hnat : (e + 1).toNat = e.toNat + 1 := by omega
    have hneg : (-(e + 1)).toNat = (-e).toNat := by omega
    rw [hnat, hneg, Nat.pow_succ, Nat.mul_comm (10 ^ e.toNat), ← Nat.mul_assoc k]
  · have hnat : (e + 1).toNat = e.toNat := by omega
    have hneg : (-e).toNat = (-(e + 1)).toNat + 1 := by omega
    rw [hnat, hneg, Nat.pow_succ, Nat.mul_right_comm k 10, Nat.mul_right_comm _ 10,
      Magnitude.nearest_mul_right _ _ (by omega)]

theorem toMagnitude_stripZeros (fuel : Nat) {d : Decimal} (hpos : 0 < d.toMagnitude)
    (hfinite : d.toMagnitude < Magnitude.infinity) :
    (stripZeros fuel d).toMagnitude = d.toMagnitude := by
  induction fuel generalizing d with
  | zero => rfl
  | succ fuel ih =>
      rw [stripZeros]
      by_cases hzero : d.digits % 10 = 0
      · have hd : d = ⟨d.digits / 10 * 10, d.exponent⟩ := by
          rw [Nat.div_mul_cancel (Nat.dvd_of_mod_eq_zero hzero)]
        have htenfold : toMagnitude ⟨d.digits / 10, d.exponent + 1⟩ = d.toMagnitude := by
          rw [hd] at hpos hfinite
          rw [toMagnitude_tenfold hpos hfinite, ← hd]
        rw [if_pos hzero, ih (by omega) (by omega), htenfold]
      · rw [if_neg hzero]

theorem toMagnitude_onGrid {position : Nat} {e : Int} {d : Decimal}
    (h : onGrid? position e = some d) : d.toMagnitude = position := by
  simp only [onGrid?] at h
  split at h
  case h_1 hlower hupper =>
    split at h
    · obtain rfl := Option.some.inj h
      exact of_decide_eq_true hupper
    · obtain rfl := Option.some.inj h
      exact of_decide_eq_true hlower
  case h_2 hlower hupper =>
    obtain rfl := Option.some.inj h
    exact of_decide_eq_true hlower
  case h_3 hlower hupper =>
    obtain rfl := Option.some.inj h
    exact of_decide_eq_true hupper
  case h_4 => cases h

theorem inRange_binary {n : Nat} (hn : n ≠ 0) (k : Nat) : InRange ⟨n * 5 ^ k, -k⟩ := by
  have hne : n * 5 ^ k ≠ 0 := Nat.mul_ne_zero hn (Nat.pow_pos (by omega)).ne'
  have hlog : 2 * k ≤ (n * 5 ^ k).log2 := by
    rw [Nat.le_log2 hne]
    calc 2 ^ (2 * k)
      _ = 4 ^ k := Nat.pow_mul 2 2 k
      _ ≤ 5 ^ k := Nat.pow_le_pow_left (by omega) k
      _ ≤ n * 5 ^ k := Nat.le_mul_of_pos_left _ (Nat.pos_of_ne_zero hn)
  refine ⟨hne, ?_, ?_⟩
  · simp only [exponentCeiling]
    omega
  · simp only [valueFloor]
    omega

/-- A binary fraction with `k` places is a decimal with `k` places. -/
theorem toMagnitude_binary {n k : Nat} (hn : n ≠ 0) (hk : Magnitude.unitsPerOne = 2 ^ k) :
    toMagnitude ⟨n * 5 ^ k, -k⟩ = Magnitude.nearest n 1 := by
  have hnat : (-(k : Int)).toNat = 0 := Int.toNat_neg_natCast k
  have hneg : (-(-(k : Int))).toNat = k := by rw [Int.neg_neg, Int.toNat_natCast]
  have hten : n * 5 ^ k * 10 ^ 0 * 2 ^ k = n * 10 ^ k := by
    rw [Nat.pow_zero, Nat.mul_one, Nat.mul_assoc, ← Nat.mul_pow]
  rw [(inRange_binary hn k).toMagnitude_eq, hnat, hneg, hk, hten,
    ← Nat.one_mul (10 ^ k), ← Nat.mul_assoc, Nat.mul_one]
  exact Magnitude.nearest_mul_right _ _ (Nat.pow_pos (Nat.zero_lt_succ 9))

theorem toMagnitude_exact {position : Nat} (hpos : 0 < position)
    (hfinite : position < Magnitude.infinity) : (exact position).toMagnitude = position := by
  have hunits : Magnitude.units position ≠ 0 := by
    intro hzero
    have h := Magnitude.nearest_units hfinite
    rw [hzero] at h
    have hnone : Magnitude.nearest 0 1 = 0 := rfl
    omega
  obtain ⟨k, hk, hones⟩ := Magnitude.exists_unitsPerOne
  have hexponent : (-1074 : Int) = -k := by omega
  rw [exact, hexponent, ← hk]
  exact (toMagnitude_binary hunits hones).trans (Magnitude.nearest_units hfinite)

/-- What is printed for a positive finite magnitude is read as that magnitude. -/
theorem toMagnitude_shortest {position : Nat} (hpos : 0 < position)
    (hfinite : position < Magnitude.infinity) : (shortest position).toMagnitude = position := by
  have hfound : ∀ d, ((List.range 17).findSome? fun (n : Nat) ↦ onGrid? position
      (pointPosition (Magnitude.units position) - (n + 1))).getD (exact position) = d →
      d.toMagnitude = position := by
    rintro d rfl
    cases hsearch : (List.range 17).findSome? fun (n : Nat) ↦ onGrid? position
        (pointPosition (Magnitude.units position) - (n + 1)) with
    | none => exact toMagnitude_exact hpos hfinite
    | some d =>
        obtain ⟨n, -, hgrid⟩ := List.exists_of_findSome?_eq_some hsearch
        exact toMagnitude_onGrid hgrid
  have hd := hfound _ rfl
  rw [shortest, toMagnitude_stripZeros _ (by omega) (by omega), hd]

/-- The point of a finite value is at most a few hundred places away from its digits. -/
theorem pointPlace_bounds {d : Decimal} (hpos : 0 < d.toMagnitude)
    (hfinite : d.toMagnitude < Magnitude.infinity) :
    -328 < (Nat.toDigits 10 d.digits).length + d.exponent ∧
      (Nat.toDigits 10 d.digits).length + d.exponent ≤ 310 := by
  have hrange := inRange_of_toMagnitude hpos hfinite
  have hupper := hrange.lt_of_finite hfinite
  have hlower := hrange.le_of_positive hpos
  have hlength : 0 < (Nat.toDigits 10 d.digits).length := Nat.length_toDigits_pos
  have hlt := (Nat.length_toDigits_le_iff (b := 10) (by omega) hlength).mp (Nat.le_refl _)
  constructor
  · have hchain : 10 ^ (-d.exponent).toNat <
        10 ^ ((Nat.toDigits 10 d.digits).length + (d.exponent.toNat + 328)) := by
      rw [Nat.pow_add]
      exact Nat.lt_of_le_of_lt hlower
        (Nat.mul_lt_mul_of_pos_right hlt (Nat.pow_pos (by omega)))
    have hexponents := (Nat.pow_lt_pow_iff_right (by omega)).mp hchain
    omega
  · have hge : 10 ^ ((Nat.toDigits 10 d.digits).length - 1) ≤ d.digits := by
      by_contra hsmall
      by_cases hone : (Nat.toDigits 10 d.digits).length = 1
      · rw [hone, Nat.sub_self, Nat.pow_zero] at hsmall
        have hnonzero := hrange.nonzero
        omega
      · have hshort := (Nat.length_toDigits_le_iff (b := 10) (n := d.digits) (by omega)
          (Nat.sub_pos_of_lt (by omega : 1 < (Nat.toDigits 10 d.digits).length))).mpr (by omega)
        omega
    have hchain : 10 ^ ((Nat.toDigits 10 d.digits).length - 1 + d.exponent.toNat) <
        10 ^ (310 + (-d.exponent).toNat) := by
      rw [Nat.pow_add]
      exact Nat.lt_of_le_of_lt (Nat.mul_le_mul_right _ hge) hupper
    have hexponents := (Nat.pow_lt_pow_iff_right (by omega)).mp hchain
    omega

end Decimal

end VexLang
