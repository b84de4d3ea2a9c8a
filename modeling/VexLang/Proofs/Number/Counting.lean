import Mathlib
import VexLang.Run.World

/-!
# Counting with numbers of the language

A loop counts its iterations with numbers of the language. Below `2 ^ 53` this is as good
as counting with natural numbers: the next number is the next natural number, and the order
is the same. A natural number of this size has a mantissa that is normal and needs no
rounding, and each operation comes down to the exact sum or product of such mantissas.
-/

namespace VexLang

open Float.Model Float.Model.UnpackedFloat

/-- The natural numbers below this one are counted exactly. -/
def countLimit : Nat := 2 ^ 53

/-- The mantissa of a positive natural number, scaled to 53 bits. -/
def wholeMantissa (n : Nat) : Nat := n * 2 ^ (52 - n.log2)

def wholeExponent (n : Nat) : Int := n.log2 - 52

theorem log2_le_of_lt_countLimit {n : Nat} (h : n < countLimit) : n.log2 ≤ 52 := by
  rcases Nat.eq_zero_or_pos n with rfl | hpos
  · decide
  · exact Nat.lt_succ_iff.mp ((Nat.log2_lt hpos.ne').mpr h)

theorem wholeMantissa_bounds {n : Nat} (hpos : 0 < n) (h : n < countLimit) :
    2 ^ 52 ≤ wholeMantissa n ∧ wholeMantissa n < 2 ^ 53 := by
  have hlog := log2_le_of_lt_countLimit h
  have hlow : 2 ^ n.log2 ≤ n := Nat.log2_self_le hpos.ne'
  have hhigh : n < 2 ^ (n.log2 + 1) := Nat.lt_log2_self
  constructor
  · calc 2 ^ 52 = 2 ^ n.log2 * 2 ^ (52 - n.log2) := by rw [← Nat.pow_add, Nat.add_sub_cancel' hlog]
      _ ≤ wholeMantissa n := Nat.mul_le_mul_right _ hlow
  · calc wholeMantissa n < 2 ^ (n.log2 + 1) * 2 ^ (52 - n.log2) :=
          Nat.mul_lt_mul_of_pos_right hhigh (Nat.two_pow_pos _)
      _ = 2 ^ 53 := by rw [← Nat.pow_add]; congr 1; omega

theorem wholeMantissa_pos {n : Nat} (hpos : 0 < n) : 0 < wholeMantissa n :=
  Nat.mul_pos hpos (Nat.two_pow_pos _)

/-- A natural number below the limit, as the operations on numbers see it. -/
def wholeParts (n : Nat) : UnpackedFloat :=
  if h : 0 < n then .finite .positive (wholeMantissa n) (wholeExponent n) (wholeMantissa_pos h)
  else .zero .positive

theorem wholeParts_of_pos {n : Nat} (h : 0 < n) : wholeParts n =
    .finite .positive (wholeMantissa n) (wholeExponent n) (wholeMantissa_pos h) :=
  dif_pos h

/-! ## Rounding what needs no rounding -/

theorem shiftRight_mul_two_pow (m t : Nat) :
    (ExtendedMantissa.mk (m * 2 ^ t) false false) >>> t = ⟨m, false, false⟩ := by
  change t.repeat ExtendedMantissa.shiftRightOne _ = _
  induction t generalizing m with
  | zero => rw [Nat.pow_zero, Nat.mul_one]; rfl
  | succ t ih =>
      have hodd : m * 2 ^ (t + 1) = m * 2 * 2 ^ t := by ring
      rw [Nat.repeat, hodd, ih, ExtendedMantissa.shiftRightOne]
      simp

theorem log2_mul_two_pow {m : Nat} (hm : 0 < m) (t : Nat) : (m * 2 ^ t).log2 = m.log2 + t := by
  rw [Nat.log2_eq_iff (Nat.mul_pos hm (Nat.two_pow_pos t)).ne']
  constructor
  · rw [Nat.pow_add]
    exact Nat.mul_le_mul_right _ (Nat.log2_self_le hm.ne')
  · rw [Nat.add_right_comm, Nat.pow_add]
    exact Nat.mul_lt_mul_of_pos_right Nat.lt_log2_self (Nat.two_pow_pos t)

/-- A mantissa of 53 bits, shifted to the left, is shifted back. -/
theorem shiftToTargetExponent_eq {m t : Nat} {e : Int} (hlog : m.log2 = 52) (hm : 0 < m)
    (he : -1074 ≤ e) :
    shiftToTargetExponent .binary64 (m * 2 ^ t) (e - t) .exact = (⟨m, false, false⟩, e) := by
  have htarget : Format.binary64.targetExponent (totalExponent (m * 2 ^ t) (e - t)) = e := by
    have hbits : (Format.binary64.mantissaBits : Int) = 53 := rfl
    have hmin : Format.binary64.minExponent = -1074 := rfl
    rw [totalExponent, log2_mul_two_pow hm, hlog, Format.targetExponent, hbits, hmin]
    omega
  have hamount : (e - (e - t)).toNat = t := by omega
  rw [shiftToTargetExponent, htarget, shiftToExponent, hamount,
    ExtendedMantissa.ofMantissaAndAccuracy, shiftRight_mul_two_pow, Int.sub_add_cancel]

theorem roundWithAccuracy_eq {m t : Nat} {e : Int} (hlog : m.log2 = 52) (hm : 0 < m)
    (he : -1074 ≤ e) (s : Sign) :
    roundWithAccuracy .binary64 s (m * 2 ^ t) (e - t) .exact = .finite s m e hm := by
  have hsecond := shiftToTargetExponent_eq (t := 0) hlog hm he
  rw [Nat.pow_zero, Nat.mul_one, Int.natCast_zero, Int.sub_zero] at hsecond
  have hrounded : (ExtendedMantissa.mk m false false).roundedMantissa = m := rfl
  rw [roundWithAccuracy, shiftToTargetExponent_eq hlog hm he]
  simp only [hrounded, hsecond]
  rw [dif_neg hm.ne']

theorem log2_wholeMantissa {n : Nat} (hpos : 0 < n) (h : n < countLimit) :
    (wholeMantissa n).log2 = 52 := by
  rw [wholeMantissa, log2_mul_two_pow hpos]
  exact Nat.add_sub_cancel' (log2_le_of_lt_countLimit h)

/-- A natural number is rounded to itself, however far it is shifted to the left. -/
theorem round_whole {n : Nat} (hpos : 0 < n) (h : n < countLimit) (t : Nat) :
    UnpackedFloat.round .binary64 .positive (n * 2 ^ t) (-t) = wholeParts n := by
  have hlog := log2_le_of_lt_countLimit h
  have htarget : Format.binary64.targetExponent (totalExponent (n * 2 ^ t) (-t)) =
      wholeExponent n := by
    have hbits : (Format.binary64.mantissaBits : Int) = 53 := rfl
    have hmin : Format.binary64.minExponent = -1074 := rfl
    rw [totalExponent, log2_mul_two_pow hpos, Format.targetExponent, hbits, hmin, wholeExponent]
    omega
  have hrounded (t : Nat) := roundWithAccuracy_eq (t := t) (log2_wholeMantissa hpos h)
    (wholeMantissa_pos hpos) (e := wholeExponent n) (by rw [wholeExponent]; omega) .positive
  rw [UnpackedFloat.round, htarget, decreaseExponent, wholeParts_of_pos hpos, Nat.shiftLeft_eq]
  -- Either the shift falls short of 53 bits and the rest is added, or it goes beyond them.
  rcases Nat.le_total t (52 - n.log2) with hshort | hlong
  · have hrest : (-(t : Int) - wholeExponent n).toNat = 52 - n.log2 - t := by
      rw [wholeExponent]
      omega
    have hmantissa : n * 2 ^ t * 2 ^ (52 - n.log2 - t) = wholeMantissa n * 2 ^ 0 := by
      rw [Nat.mul_assoc, ← Nat.pow_add, Nat.add_sub_cancel' hshort, wholeMantissa, Nat.pow_zero,
        Nat.mul_one]
    have hexponent : -(t : Int) - (52 - n.log2 - t : Nat) = wholeExponent n - (0 : Nat) := by
      rw [wholeExponent]
      omega
    rw [hrest, hmantissa, hexponent]
    exact hrounded 0
  · have hrest : (-(t : Int) - wholeExponent n).toNat = 0 := by
      rw [wholeExponent]
      omega
    have hmantissa : n * 2 ^ t * 2 ^ 0 = wholeMantissa n * 2 ^ (t - (52 - n.log2)) := by
      rw [Nat.pow_zero, Nat.mul_one, wholeMantissa, Nat.mul_assoc, ← Nat.pow_add,
        Nat.add_sub_cancel' hlong]
    have hexponent : -(t : Int) - (0 : Nat) = wholeExponent n - (t - (52 - n.log2) : Nat) := by
      rw [wholeExponent]
      omega
    rw [hrest, hmantissa, hexponent]
    exact hrounded _

/-! ## Numbers in memory -/

theorem unpackSign_packComponents (s : Sign) (e : BitVec 11) (m : BitVec 52) :
    Sign.ofBitVec (unpackSign (packComponents .binary64 s e m)) = s := by
  simp only [unpackSign, packComponents, BitVec.extractLsb]
  rw [BitVec.extractLsb'_append_eq_of_le (by omega), BitVec.extractLsb'_append_eq_of_le (by omega)]
  cases s <;> rfl

theorem toNat_one_append (m : BitVec 52) : (1#1 ++ m).toNat = 2 ^ 52 + m.toNat := by
  rw [BitVec.toNat_append, ← Nat.shiftLeft_add_eq_or_of_lt m.isLt]
  rfl

/-- A number with a mantissa of 53 bits is found in memory as it was put there. -/
theorem unpack_pack_normal {m : Nat} {e : Int} (hlow : 2 ^ 52 ≤ m) (hhigh : m < 2 ^ 53)
    (hm : 0 < m) (helow : -52 ≤ e) (hehigh : e ≤ 0) (s : Sign) :
    (Float.Model.pack (.finite s m e hm)).unpack = .finite s m e hm := by
  have hlog : m.log2 = 52 := (Nat.log2_eq_iff hm.ne').mpr ⟨hlow, hhigh⟩
  have hbiased : (e + Format.binary64.exponentBias +
      Format.binary64.mantissaBitsWithoutImplicit).toNat = (e + 1075).toNat := by
    change (e + (1023 : Nat) + (52 : Nat)).toNat = (e + 1075).toNat
    omega
  have hexponent : (BitVec.ofNat 11 (e + 1075).toNat).toNat = (e + 1075).toNat := by
    rw [BitVec.toNat_ofNat]
    omega
  have hmantissa : (1#1 ++ BitVec.ofNat 52 m).toNat = m := by
    rw [toNat_one_append, BitVec.toNat_ofNat]
    omega
  change UnpackedFloat.unpack .binary64 (UnpackedFloat.pack .binary64 (.finite s m e hm)) = _
  rw [UnpackedFloat.pack]
  simp only [hlog, hbiased]
  rw [if_neg (by omega), if_pos (by rfl), UnpackedFloat.unpack]
  simp only [unpackMantissa_packComponents, unpackExponent_packComponents,
    unpackSign_packComponents]
  have hnotAll : BitVec.ofNat 11 (e + 1075).toNat ≠ -1#11 := by
    intro hall
    rw [hall] at hexponent
    change 2047 = _ at hexponent
    omega
  have hnotNone : BitVec.ofNat 11 (e + 1075).toNat ≠ 0#11 := by
    intro hnone
    rw [hnone] at hexponent
    change 0 = _ at hexponent
    omega
  have hback : ((e + 1075).toNat : Int) - (Format.binary64.exponentBias +
      Format.binary64.mantissaBitsWithoutImplicit) = e := by
    change _ - ((1023 : Nat) + (52 : Nat) : Int) = e
    omega
  rw [if_neg hnotAll, if_neg hnotNone]
  simp only [hmantissa, hexponent, hback]

theorem unpack_pack_whole {n : Nat} (h : n < countLimit) :
    (Float.Model.pack (wholeParts n)).unpack = wholeParts n := by
  rcases Nat.eq_zero_or_pos n with rfl | hpos
  · rfl
  · obtain ⟨hlow, hhigh⟩ := wholeMantissa_bounds hpos h
    have hlog := log2_le_of_lt_countLimit h
    rw [wholeParts_of_pos hpos]
    exact unpack_pack_normal hlow hhigh _ (by rw [wholeExponent]; omega)
      (by rw [wholeExponent]; omega) .positive

theorem normalize_whole {n : Nat} (h : n < countLimit) (t : Nat) :
    UnpackedFloat.normalize .binary64 (n * 2 ^ t : Nat) (-t) .positive = wholeParts n := by
  rcases Nat.eq_zero_or_pos n with rfl | hpos
  · rw [Nat.zero_mul]
    rfl
  · have hgt : compare ((n * 2 ^ t : Nat) : Int) 0 = .gt :=
      compare_gt_iff_gt.mpr (Int.natCast_pos.mpr (Nat.mul_pos hpos (Nat.two_pow_pos t)))
    rw [UnpackedFloat.normalize, hgt]
    exact round_whole hpos h t

/-! ## Counting -/

theorem one_unpack : (1.0 : Float).toModel.unpack = .finite .positive (2 ^ 52) (-52) (by decide) :=
  rfl

theorem mul_one_whole {n : Nat} (h : n < countLimit) :
    UnpackedFloat.mul .binary64 (wholeParts n) (1.0 : Float).toModel.unpack = wholeParts n := by
  rw [one_unpack]
  rcases Nat.eq_zero_or_pos n with rfl | hpos
  · rfl
  · have hlog := log2_le_of_lt_countLimit h
    rw [wholeParts_of_pos hpos]
    exact roundWithAccuracy_eq (log2_wholeMantissa hpos h) (wholeMantissa_pos hpos)
      (by rw [wholeExponent]; omega) _

theorem add_one_whole {n : Nat} (h : n + 1 < countLimit) :
    UnpackedFloat.add .binary64 (wholeParts n) (1.0 : Float).toModel.unpack =
      wholeParts (n + 1) := by
  rw [one_unpack]
  rcases Nat.eq_zero_or_pos n with rfl | hpos
  · rfl
  · have hlog := log2_le_of_lt_countLimit (Nat.lt_of_succ_lt h)
    have hsmaller : min (wholeExponent n) (-52) = -52 := by
      rw [wholeExponent]
      omega
    have hshift : (wholeExponent n - -52).toNat = n.log2 := by
      rw [wholeExponent]
      omega
    have hscaled : wholeMantissa n * 2 ^ n.log2 = n * 2 ^ 52 := by
      rw [wholeMantissa, Nat.mul_assoc, ← Nat.pow_add, Nat.sub_add_cancel hlog]
    have hsum : ((n * 2 ^ 52 : Nat) : Int) + (2 ^ 52 : Nat) = ((n + 1) * 2 ^ 52 : Nat) := by
      push_cast
      ring
    rw [wholeParts_of_pos hpos, UnpackedFloat.add]
    simp only [hsmaller, decreaseExponent, hshift, Nat.shiftLeft_eq, hscaled, Sign.apply]
    rw [show ((-52 : Int) - -52).toNat = 0 from rfl, Nat.pow_zero, Nat.mul_one, hsum]
    exact normalize_whole h 52

/-- A natural number below the limit as a number of the language. -/
theorem ofNat_eq {n : Nat} (h : n < countLimit) :
    Float.ofNat n = ⟨Float.Model.pack (wholeParts n)⟩ := by
  have hword : n.toUInt64.toNat = n :=
    Nat.mod_eq_of_lt (Nat.lt_trans h (by decide))
  have hconverted : n.toUInt64.toFloat = ⟨Float.Model.pack (wholeParts n)⟩ := by
    have hparts := normalize_whole h 0
    rw [Nat.pow_zero, Nat.mul_one] at hparts
    change (⟨Float.Model.pack
      (UnpackedFloat.normalize .binary64 n.toUInt64.toNat 0 .positive)⟩ : Float) = _
    rw [hword]
    exact congrArg (fun parts ↦ (⟨Float.Model.pack parts⟩ : Float)) hparts
  have hscientific : Float.ofNat n = n.toUInt64.toFloat * 1.0 := dif_pos ⟨h, by decide⟩
  rw [hscientific, hconverted]
  change (⟨Float.Model.pack (UnpackedFloat.mul .binary64 (Float.Model.pack (wholeParts n)).unpack
    (1.0 : Float).toModel.unpack)⟩ : Float) = _
  rw [unpack_pack_whole h, mul_one_whole h]

/-- Counting one further is exact. -/
theorem ofNat_add_one {n : Nat} (h : n + 1 < countLimit) :
    Float.ofNat n + 1.0 = Float.ofNat (n + 1) := by
  rw [ofNat_eq (Nat.lt_of_succ_lt h), ofNat_eq h]
  change (⟨Float.Model.pack (UnpackedFloat.add .binary64 (Float.Model.pack (wholeParts n)).unpack
    (1.0 : Float).toModel.unpack)⟩ : Float) = _
  rw [unpack_pack_whole (Nat.lt_of_succ_lt h), add_one_whole h]

theorem compare_wholeParts {m n : Nat} (hm : 0 < m) (hn : 0 < n) :
    (wholeParts m).compare (wholeParts n) = some ((compare (wholeExponent m) (wholeExponent n)).then
      (compare (wholeMantissa m) (wholeMantissa n))) := by
  rw [wholeParts_of_pos hm, wholeParts_of_pos hn]
  rfl

/-- Of numbers of different length the longer one is larger. Those of the same length are
scaled by the same factor. -/
theorem compare_whole {m n : Nat} (hm : 0 < m) (hn : 0 < n) :
    (compare (wholeExponent m) (wholeExponent n)).then
      (compare (wholeMantissa m) (wholeMantissa n)) = compare m n := by
  have hlowm : 2 ^ m.log2 ≤ m := Nat.log2_self_le hm.ne'
  have hlown : 2 ^ n.log2 ≤ n := Nat.log2_self_le hn.ne'
  have hlonger {a b : Nat} (h : a.log2 < b.log2) (hb : 2 ^ b.log2 ≤ b) : a < b :=
    calc a < 2 ^ (a.log2 + 1) := Nat.lt_log2_self
      _ ≤ 2 ^ b.log2 := Nat.pow_le_pow_right (by decide) h
      _ ≤ b := hb
  rcases Nat.lt_trichotomy m.log2 n.log2 with hshort | hsame | hlong
  · have hexponent : compare (wholeExponent m) (wholeExponent n) = .lt :=
      compare_lt_iff_lt.mpr (by rw [wholeExponent, wholeExponent]; omega)
    rw [hexponent, compare_lt_iff_lt.mpr (hlonger hshort hlown)]
    rfl
  · have hexponent : wholeExponent m = wholeExponent n := by rw [wholeExponent, hsame]; rfl
    have hmantissa : wholeMantissa m = m * 2 ^ (52 - n.log2) := by rw [wholeMantissa, hsame]
    rw [hexponent, compare_eq_iff_eq.mpr rfl, hmantissa, wholeMantissa]
    change compare _ _ = _
    rcases Nat.lt_trichotomy m n with hlt | rfl | hgt
    · rw [compare_lt_iff_lt.mpr hlt, compare_lt_iff_lt]
      exact Nat.mul_lt_mul_of_pos_right hlt (Nat.two_pow_pos _)
    · rw [compare_eq_iff_eq.mpr rfl, compare_eq_iff_eq.mpr rfl]
    · rw [compare_gt_iff_gt.mpr hgt, compare_gt_iff_gt]
      exact Nat.mul_lt_mul_of_pos_right hgt (Nat.two_pow_pos _)
  · have hexponent : compare (wholeExponent m) (wholeExponent n) = .gt :=
      compare_gt_iff_gt.mpr (by rw [wholeExponent, wholeExponent]; omega)
    rw [hexponent, compare_gt_iff_gt.mpr (hlonger hlong hlowm)]
    rfl

theorem wholeParts_lt (m n : Nat) : (wholeParts m).lt (wholeParts n) = decide (m < n) := by
  rcases Nat.eq_zero_or_pos m with rfl | hm
  · rcases Nat.eq_zero_or_pos n with rfl | hn
    · rfl
    · rw [wholeParts_of_pos hn, decide_eq_true hn]
      rfl
  · rcases Nat.eq_zero_or_pos n with rfl | hn
    · rw [wholeParts_of_pos hm]
      rfl
    · rw [UnpackedFloat.lt, compare_wholeParts hm hn, compare_whole hm hn]
      rcases Nat.lt_or_ge m n with hlt | hge
      · rw [compare_lt_iff_lt.mpr hlt, decide_eq_true hlt]
        rfl
      · rw [decide_eq_false (Nat.not_lt.mpr hge)]
        rcases Nat.lt_or_eq_of_le hge with hgt | rfl
        · rw [compare_gt_iff_gt.mpr hgt]
          rfl
        · rw [compare_eq_iff_eq.mpr rfl]
          rfl

/-- Numbers of the language are ordered as the natural numbers they stand for. -/
theorem ofNat_lt_ofNat {m n : Nat} (hm : m < countLimit) (hn : n < countLimit) :
    Float.ofNat m < Float.ofNat n ↔ m < n := by
  rw [ofNat_eq hm, ofNat_eq hn]
  change decide ((Float.Model.pack (wholeParts m)).unpack.lt
    (Float.Model.pack (wholeParts n)).unpack = true) = true ↔ m < n
  rw [decide_eq_true_iff, unpack_pack_whole hm, unpack_pack_whole hn, wholeParts_lt,
    decide_eq_true_iff]

end VexLang
