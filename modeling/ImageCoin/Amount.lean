import Mathlib.Tactic

/-!
# Amounts

`CAmount` is a signed 64-bit integer whose arithmetic wraps.  Sums of values
that were range-checked one by one are exact; `toInt` is the exact value.
-/

namespace ImageCoin

abbrev CAmount := Int64

def coin : CAmount := 100000000

def maxMoney : CAmount := 21000000 * coin

def moneyRange (nValue : CAmount) : Bool :=
  0 ≤ nValue && nValue ≤ maxMoney

theorem maxMoney_toInt : maxMoney.toInt = 2100000000000000 := by decide

theorem moneyRange_iff {nValue : CAmount} : moneyRange nValue ↔
    0 ≤ nValue.toInt ∧ nValue.toInt ≤ 2100000000000000 := by
  simp [moneyRange, Int64.le_iff_toInt_le, maxMoney_toInt]

variable {a b : CAmount}

theorem toInt_add_of_fits (hlow : -2 ^ 63 ≤ a.toInt + b.toInt)
    (hhigh : a.toInt + b.toInt < 2 ^ 63) : (a + b).toInt = a.toInt + b.toInt := by
  rw [Int64.toInt_add]
  exact Int.bmod_eq_of_le (by omega) (by omega)

theorem toInt_sub_of_fits (hlow : -2 ^ 63 ≤ a.toInt - b.toInt)
    (hhigh : a.toInt - b.toInt < 2 ^ 63) : (a - b).toInt = a.toInt - b.toInt := by
  rw [Int64.toInt_sub]
  exact Int.bmod_eq_of_le (by omega) (by omega)

theorem toInt_add_le_of_nonneg (ha : 0 ≤ a.toInt) : (a + b).toInt ≤ a.toInt + b.toInt := by
  have hlow := b.le_toInt
  have hhigh := (a + b).toInt_lt
  by_cases hfits : a.toInt + b.toInt < 2 ^ 63
  · exact (toInt_add_of_fits (by omega) hfits).le
  · omega

theorem toInt_add_of_moneyRange (ha : moneyRange a) (hb : moneyRange b) :
    (a + b).toInt = a.toInt + b.toInt := by
  rw [moneyRange_iff] at ha hb
  exact toInt_add_of_fits (by omega) (by omega)

end ImageCoin
