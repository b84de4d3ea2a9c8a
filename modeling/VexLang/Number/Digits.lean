/-!
# Decimal digits

What a run of digits denotes. `foldDigits` says it digit by digit; `digitsValue` joins halves,
so that a run of a million digits is read with a few large products, and
`digitsValue_eq_foldDigits` says that both agree. An exponent is read by
`exponentValue`, which pays no attention to digits that follow a number out of range.
-/

namespace VexLang

def digitValue (c : Char) : Nat :=
  c.toNat - '0'.toNat

/-- The number that digits denote, read from the left. -/
def foldDigits (ds : List Char) : Nat :=
  ds.foldl (fun n c ↦ 10 * n + digitValue c) 0

/-- The number that the first `count` digits denote, and the digits after them. The run is
halved `halvings` times before its parts are read digit by digit. -/
def readDigits : Nat → Nat → List Char → Nat × List Char
  | 0, count, ds => (foldDigits (ds.take count), ds.drop count)
  | halvings + 1, count, ds =>
    let (high, afterHigh) := readDigits halvings (count / 2) ds
    let (low, rest) := readDigits halvings (count - count / 2) afterHigh
    (high * Nat.pow 10 (count - count / 2) + low, rest)

/-- The number that digits denote. Runs of fewer than 32 digits are not halved. -/
def digitsValue (ds : List Char) : Nat :=
  (readDigits (Nat.log2 (ds.length / 16)) ds.length ds).1

/-- An exponent that has reached this number stays as it is, whatever digits follow. -/
def exponentBound : Nat := 0x10000

/-- The number that the digits of an exponent denote, up to the digit that takes it to
`exponentBound` or beyond. In a numeral of fewer than sixty thousand digits the others make no
difference, because its value is out of range already. -/
def exponentValue (ds : List Char) : Nat :=
  ds.foldl (fun n c ↦ if n < exponentBound then 10 * n + digitValue c else n) 0

theorem foldl_digits (ds : List Char) (n : Nat) :
    ds.foldl (fun n c ↦ 10 * n + digitValue c) n =
      n * Nat.pow 10 ds.length + foldDigits ds := by
  induction ds generalizing n with
  | nil => simp [foldDigits]
  | cons d ds ih =>
      have hpow : Nat.pow 10 (d :: ds).length = Nat.pow 10 ds.length * 10 := rfl
      rw [foldDigits, List.foldl_cons, List.foldl_cons, ih, ih (10 * 0 + _), hpow]
      grind

theorem foldDigits_append (ds es : List Char) :
    foldDigits (ds ++ es) = foldDigits ds * Nat.pow 10 es.length + foldDigits es := by
  have h := foldl_digits es (foldDigits ds)
  rwa [foldDigits, ← List.foldl_append] at h

theorem readDigits_eq (halvings count : Nat) (ds : List Char) (h : count ≤ ds.length) :
    readDigits halvings count ds = (foldDigits (ds.take count), ds.drop count) := by
  induction halvings generalizing count ds with
  | zero => rfl
  | succ halvings ih =>
      have hrest : count - count / 2 ≤ (ds.drop (count / 2)).length := by
        rw [List.length_drop]
        omega
      have hcount : count / 2 + (count - count / 2) = count := by omega
      have htake : ds.take count =
          ds.take (count / 2) ++ (ds.drop (count / 2)).take (count - count / 2) := by
        rw [← List.take_add, hcount]
      have hdrop : (ds.drop (count / 2)).drop (count - count / 2) = ds.drop count := by
        rw [List.drop_drop, hcount]
      simp only [readDigits]
      rw [ih (count / 2) ds (by omega)]
      simp only
      rw [ih _ _ hrest, htake, foldDigits_append, List.length_take_of_le hrest, hdrop]

theorem digitsValue_eq_foldDigits (ds : List Char) : digitsValue ds = foldDigits ds := by
  rw [digitsValue, readDigits_eq _ _ _ (Nat.le_refl _), List.take_length]

end VexLang
