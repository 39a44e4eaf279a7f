import ImageCoin.ChainParams

/-!
# Compact targets lose low bits only

`GetCompact` keeps the three highest bytes of a number, two if the sign bit would
be set.  Decoding what it returns raises no flag and gives the greatest number with a
compact form that is not greater.
-/

namespace ImageCoin

open Nat

def compactValue (nSize nWord : ℕ) : ℕ :=
  if nSize ≤ 3 then nWord / 256 ^ (3 - nSize) else nWord * 256 ^ (nSize - 3)

variable {target : UInt256} {nSize nWord value : ℕ}

theorem compactValue_eq (nSize nWord : ℕ) :
    compactValue nSize nWord = nWord * 256 ^ nSize / 256 ^ 3 := by
  unfold compactValue
  split_ifs with hsmall
  · rw [← Nat.mul_div_mul_right nWord _ (by positivity : 0 < 256 ^ nSize), ← pow_add,
      Nat.sub_add_cancel hsmall]
  · obtain ⟨more, rfl⟩ := Nat.exists_eq_add_of_lt (not_le.mp hsmall)
    rw [show 3 + more + 1 = more + 1 + 3 by omega, Nat.add_sub_cancel, pow_add _ _ 3, ← mul_assoc,
      Nat.mul_div_cancel _ (by positivity)]

/-- The signed number that a compact form stands for. -/
def encodedTarget (nCompact : UInt32) : ℤ :=
  let value : ℤ := compactValue (nCompact.toNat / 2 ^ 24) (nCompact.toNat % 2 ^ 23)
  if nCompact.toNat.testBit 23 then -value else value

theorem le_compactValue_iff (hword : nWord < 2 ^ 23) (hlarge : 3 < nSize) :
    2 ^ 256 ≤ nWord * 256 ^ (nSize - 3) ↔ nWord ≠ 0 ∧ (34 < nSize ∨
      (0xff < nWord ∧ 33 < nSize) ∨ (0xffff < nWord ∧ 32 < nSize)) := by
  have hmono : ∀ {k l}, k ≤ l → 256 ^ k ≤ 256 ^ l := fun h => Nat.pow_le_pow_right (by omega) h
  by_cases hhuge : 34 < nSize
  · have hpow : 256 ^ 32 ≤ 256 ^ (nSize - 3) := hmono (by omega)
    refine ⟨fun hle => ⟨fun hzero => by simp [hzero] at hle, .inl hhuge⟩, fun h => ?_⟩
    exact hpow.trans (Nat.le_mul_of_pos_left _ (Nat.pos_of_ne_zero h.1))
  by_cases h34 : nSize = 34
  · subst h34
    omega
  by_cases h33 : nSize = 33
  · subst h33
    omega
  have hpow : 256 ^ (nSize - 3) ≤ 256 ^ 29 := hmono (by omega)
  have hlt := Nat.mul_le_mul hword.le hpow
  omega

theorem natAbs_encodedTarget (nCompact : UInt32) : (encodedTarget nCompact).natAbs =
    compactValue (nCompact.toNat / 2 ^ 24) (nCompact.toNat % 2 ^ 23) := by
  unfold encodedTarget
  dsimp only
  split_ifs <;> omega

theorem setCompact_spec (nCompact : UInt32) :
    ((setCompact nCompact).fNegative ↔ encodedTarget nCompact < 0) ∧
      ((setCompact nCompact).fOverflow ↔ 2 ^ 256 ≤ (encodedTarget nCompact).natAbs) ∧
      (setCompact nCompact).target.toNat = (encodedTarget nCompact).natAbs % 2 ^ 256 := by
  have hpow : ∀ k, 2 ^ (8 * k) = 256 ^ k := fun k => pow_mul 2 8 k
  have hword : nCompact.toNat % 2 ^ 23 < 2 ^ 23 := mod_lt _ (by decide)
  have hneg : encodedTarget nCompact < 0 ↔
      (compactValue (nCompact.toNat / 2 ^ 24) (nCompact.toNat % 2 ^ 23) ≠ 0 ∧
        nCompact.toNat.testBit 23) := by
    unfold encodedTarget
    split_ifs with hsign
    · simp [hsign]
      omega
    · simp [hsign]
  rw [natAbs_encodedTarget, hneg]
  simp only [setCompact, hpow]
  generalize nCompact.toNat % 2 ^ 23 = nWord at *
  generalize nCompact.toNat / 2 ^ 24 = nSize at *
  unfold compactValue
  split_ifs with hsmall
  · have hle := div_le_self nWord (256 ^ (3 - nSize))
    refine ⟨by simp, ?_, BitVec.toNat_ofNat ..⟩
    simp
    omega
  · refine ⟨by simp, ?_, ?_⟩
    · rw [le_compactValue_iff hword (not_le.mp hsmall)]
      simp [or_assoc]
    · rw [BitVec.toNat_shiftLeft, BitVec.toNat_ofNat, shiftLeft_eq, hpow, mod_mul_mod]

theorem encodedTarget_of_parts (hword : nWord < 2 ^ 23) (hsize : nSize < 2 ^ 8) :
    encodedTarget (UInt32.ofNat (nWord + nSize * 2 ^ 24)) = compactValue nSize nWord := by
  have hnat : (UInt32.ofNat (nWord + nSize * 2 ^ 24)).toNat = nWord + nSize * 2 ^ 24 := by
    rw [UInt32.toNat_ofNat']
    exact mod_eq_of_lt (by omega)
  have hhigh : (nWord + nSize * 2 ^ 24) / 2 ^ 24 = nSize := by omega
  have hlow : (nWord + nSize * 2 ^ 24) % 2 ^ 23 = nWord := by omega
  have hsign : (nWord + nSize * 2 ^ 24).testBit 23 = false := by
    rw [testBit_eq_decide_div_mod_eq, decide_eq_false_iff_not]
    omega
  simp only [encodedTarget, hnat, hhigh, hlow, hsign, Bool.false_eq_true, if_false]

theorem bytes_bounds (hne : target ≠ 0) : 0 < (bits target + 7) / 8 ∧ (bits target + 7) / 8 ≤ 32 ∧
    256 ^ ((bits target + 7) / 8 - 1) ≤ target.toNat ∧
    target.toNat < 256 ^ ((bits target + 7) / 8) := by
  have hnat : target.toNat ≠ 0 := fun h => hne (BitVec.toNat_inj.mp h)
  have hbits : bits target = target.toNat.log2 + 1 := by rw [bits, if_neg hne]
  have hlow : 2 ^ target.toNat.log2 ≤ target.toNat := log2_self_le hnat
  have hhigh : target.toNat < 2 ^ (target.toNat.log2 + 1) := lt_log2_self
  have hwidth : target.toNat.log2 < 256 := by
    rw [log2_lt hnat]
    exact target.isLt
  have hpow : ∀ k, 256 ^ k = 2 ^ (8 * k) := fun k => (pow_mul 2 8 k).symm
  refine ⟨by omega, by omega, ?_, ?_⟩
  · rw [hpow]
    exact (Nat.pow_le_pow_right (by omega) (by omega)).trans hlow
  · rw [hpow]
    exact hhigh.trans_le (Nat.pow_le_pow_right (by omega) (by omega))

def topBytes (nSize value : ℕ) : ℕ :=
  if nSize ≤ 3 then value * 256 ^ (3 - nSize) else value / 256 ^ (nSize - 3)

theorem topBytes_eq (nSize value : ℕ) : topBytes nSize value = value * 256 ^ 3 / 256 ^ nSize := by
  unfold topBytes
  split_ifs with hsmall
  · rw [← Nat.sub_add_cancel hsmall, pow_add, ← mul_assoc, Nat.mul_div_cancel _ (by positivity),
      Nat.sub_add_cancel hsmall]
  · obtain ⟨more, rfl⟩ := Nat.exists_eq_add_of_lt (not_le.mp hsmall)
    rw [show 3 + more + 1 = more + 1 + 3 by omega, Nat.add_sub_cancel, pow_add 256 (more + 1),
      Nat.mul_div_mul_right _ _ (by positivity)]

theorem topBytes_bounds (hpos : 0 < nSize) (hlow : 256 ^ (nSize - 1) ≤ value)
    (hhigh : value < 256 ^ nSize) :
    2 ^ 16 ≤ topBytes nSize value ∧ topBytes nSize value < 2 ^ 24 := by
  obtain ⟨k, rfl⟩ := exists_eq_succ_of_ne_zero hpos.ne'
  rw [succ_sub_one] at hlow
  rw [topBytes_eq, le_div_iff_mul_le (by positivity), div_lt_iff_lt_mul (by positivity)]
  omega

theorem getCompact_eq (hne : target ≠ 0) : getCompact target = let nSize := (bits target + 7) / 8
    let nWord := topBytes nSize target.toNat
    if nWord.testBit 23 then
      UInt32.ofNat (nWord / 256 + (nSize + 1) * 2 ^ 24)
    else UInt32.ofNat (nWord + nSize * 2 ^ 24) := by
  obtain ⟨hpos, hsize, hlow, hhigh⟩ := bytes_bounds hne
  have hword := (topBytes_bounds hpos hlow hhigh).2
  have hpow : ∀ k, 2 ^ (8 * k) = 256 ^ k := fun k => pow_mul 2 8 k
  have hsame : (if (bits target + 7) / 8 ≤ 3 then
        target.toNat % 2 ^ 64 * 256 ^ (3 - (bits target + 7) / 8) % 2 ^ 32
      else target.toNat / 256 ^ ((bits target + 7) / 8 - 3) % 2 ^ 32) =
      topBytes ((bits target + 7) / 8) target.toNat := by
    unfold topBytes at hword ⊢
    split_ifs at hword ⊢ with hsmall
    · have hfits : target.toNat < 2 ^ 64 :=
        hhigh.trans_le ((Nat.pow_le_pow_right (by omega) hsmall).trans (by omega))
      rw [mod_eq_of_lt hfits, mod_eq_of_lt (by omega)]
    · exact mod_eq_of_lt (by omega)
  simp only [getCompact, hpow, hsame]
  rfl

/-- The word has at least two bytes, and the sign bit is clear. -/
theorem getCompact_parts (hne : target ≠ 0) : ∃ nSize nWord,
    getCompact target = UInt32.ofNat (nWord + nSize * 2 ^ 24) ∧ nSize < 2 ^ 8 ∧
      2 ^ 15 ≤ nWord ∧ nWord < 2 ^ 23 ∧ nWord = target.toNat * 256 ^ 3 / 256 ^ nSize := by
  obtain ⟨hpos, hsize, hlow, hhigh⟩ := bytes_bounds hne
  obtain ⟨hword, hword'⟩ := topBytes_bounds hpos hlow hhigh
  have htop := topBytes_eq ((bits target + 7) / 8) target.toNat
  rw [getCompact_eq hne]
  dsimp only
  generalize (bits target + 7) / 8 = nSize at *
  generalize topBytes nSize target.toNat = nWord at *
  rw [testBit_eq_decide_div_mod_eq]
  split_ifs with hsign
  · -- The sign bit is taken: one byte less, and the next size.
    refine ⟨nSize + 1, nWord / 256, rfl, by omega, ?_, by omega, ?_⟩
    · simp only [decide_eq_true_eq] at hsign
      omega
    · rw [htop, Nat.div_div_eq_div_mul, ← pow_succ]
  · refine ⟨nSize, nWord, rfl, by omega, by omega, ?_, htop⟩
    simp only [decide_eq_true_eq] at hsign
    omega

theorem compactValue_le (hword : nWord = value * 256 ^ 3 / 256 ^ nSize) :
    compactValue nSize nWord ≤ value := by
  rw [compactValue_eq, hword, mul_comm]
  refine Nat.div_le_of_le_mul ?_
  rw [mul_comm (256 ^ 3)]
  exact mul_div_le _ _

theorem compactValue_max {nSize' nWord' : ℕ} (hlow : 2 ^ 15 ≤ nWord)
    (hword : nWord = value * 256 ^ 3 / 256 ^ nSize) (hword' : nWord' < 2 ^ 23)
    (hle : compactValue nSize' nWord' ≤ value) :
    compactValue nSize' nWord' ≤ compactValue nSize nWord := by
  rcases lt_or_ge nSize' nSize with hless | hmore
  · -- The word with fewer bytes behind it is too short.
    obtain ⟨k, rfl⟩ := exists_eq_succ_of_ne_zero (ne_of_gt (zero_lt_of_lt hless))
    rw [compactValue_eq, compactValue_eq]
    refine Nat.div_le_div_right ((Nat.mul_le_mul_left nWord'
      (Nat.pow_le_pow_right (by omega) (by omega : nSize' ≤ k))).trans ?_)
    rw [pow_succ', ← mul_assoc]
    exact mul_le_mul_right _ (by omega)
  · unfold compactValue at hle ⊢
    rw [← topBytes_eq, topBytes] at hword
    by_cases hsmall : nSize ≤ 3
    · rw [if_pos hsmall] at hword
      rw [if_pos hsmall, hword, Nat.mul_div_cancel _ (by positivity)]
      exact hle
    · rw [if_neg hsmall] at hword
      rw [if_neg (by omega)] at hle ⊢
      rw [if_neg hsmall, hword]
      have hsplit : nSize' - 3 = nSize' - nSize + (nSize - 3) := by omega
      rw [hsplit, pow_add, ← mul_assoc] at hle ⊢
      exact mul_le_mul_right _ ((le_div_iff_mul_le (by positivity)).mpr hle)

theorem getCompact_spec (target : UInt256) : ∃ nSize nWord,
    encodedTarget (getCompact target) = compactValue nSize nWord ∧
      compactValue nSize nWord ≤ target.toNat ∧ (target ≠ 0 → compactValue nSize nWord ≠ 0) ∧
      ∀ nSize' nWord', nWord' < 2 ^ 23 → compactValue nSize' nWord' ≤ target.toNat →
        compactValue nSize' nWord' ≤ compactValue nSize nWord := by
  by_cases hne : target = 0
  · subst hne
    exact ⟨0, 0, by decide, by decide, fun h => absurd rfl h, fun _ _ _ hle => hle⟩
  · obtain ⟨nSize, nWord, hcompact, hsize, hlow, hhigh, hword⟩ := getCompact_parts hne
    refine ⟨nSize, nWord, ?_, compactValue_le hword, fun _ => ?_,
      fun _ _ => compactValue_max hlow hword⟩
    · rw [hcompact, encodedTarget_of_parts hhigh hsize]
    · -- One is a compact form that is not greater than the number.
      have hone : 1 ≤ target.toNat := pos_of_ne_zero fun h => hne (BitVec.toNat_inj.mp h)
      have hpos : compactValue 3 1 ≤ _ := compactValue_max hlow hword (by decide) hone
      exact ne_of_gt hpos

theorem setCompact_getCompact (target : UInt256) :
    (setCompact (getCompact target)).fNegative = false ∧
      (setCompact (getCompact target)).fOverflow = false ∧
      (setCompact (getCompact target)).target ≤ target ∧
      (target ≠ 0 → (setCompact (getCompact target)).target ≠ 0) := by
  obtain ⟨nSize, nWord, hvalue, hle, hpos, -⟩ := getCompact_spec target
  obtain ⟨hnegative, hoverflow, htarget⟩ := setCompact_spec (getCompact target)
  have hfits := hle.trans_lt target.isLt
  rw [hvalue, Int.natAbs_natCast] at hoverflow htarget
  rw [mod_eq_of_lt hfits] at htarget
  refine ⟨?_, ?_, ?_, fun hne hzero => ?_⟩
  · rw [Bool.eq_false_iff, Ne, hnegative]
    omega
  · rw [Bool.eq_false_iff, Ne, hoverflow]
    omega
  · rw [BitVec.le_def, htarget]
    exact hle
  · rw [hzero] at htarget
    exact hpos hne htarget.symm

/-- A non-negative compact form that could not be shorter and stands for all of its bytes. -/
def isCanonicalCompact (nCompact : UInt32) : Bool :=
  nCompact = 0 || !nCompact.toNat.testBit 23 && 2 ^ 15 ≤ nCompact.toNat % 2 ^ 23 &&
    nCompact.toNat % 2 ^ 23 * 256 ^ (nCompact.toNat / 2 ^ 24) % 256 ^ 3 = 0 &&
    !(setCompact nCompact).fOverflow

theorem getCompact_setCompact {nCompact : UInt32} (hcanonical : isCanonicalCompact nCompact) :
    getCompact (setCompact nCompact).target = nCompact := by
  by_cases hzero : nCompact = 0
  · rw [hzero]
    decide
  simp only [isCanonicalCompact, hzero, decide_false, Bool.false_or, Bool.and_eq_true,
    Bool.not_eq_true', decide_eq_true_eq] at hcanonical
  obtain ⟨⟨⟨hsign, hlow⟩, hwhole⟩, hfits⟩ := hcanonical
  obtain ⟨-, hoverflow, htarget⟩ := setCompact_spec nCompact
  rw [hfits] at hoverflow
  have hhigh : nCompact.toNat % 2 ^ 23 < 2 ^ 23 := mod_lt _ (by decide)
  rw [mod_eq_of_lt (by simpa using hoverflow), natAbs_encodedTarget, compactValue_eq] at htarget
  have hnat : nCompact.toNat = nCompact.toNat % 2 ^ 23 + nCompact.toNat / 2 ^ 24 * 2 ^ 24 := by
    rw [testBit_eq_decide_div_mod_eq, decide_eq_false_iff_not] at hsign
    omega
  generalize nCompact.toNat % 2 ^ 23 = nWord at *
  generalize nCompact.toNat / 2 ^ 24 = nSize at *
  have hscaled : (setCompact nCompact).target.toNat * 256 ^ 3 = nWord * 256 ^ nSize := by
    rw [htarget]
    exact Nat.div_mul_cancel (Nat.dvd_of_mod_eq_zero hwhole)
  have hne : (setCompact nCompact).target ≠ 0 := by
    intro hzero
    rw [hzero] at hscaled
    simp at hscaled
    omega
  obtain ⟨nSize', nWord', hcompact, -, hlow', hhigh', hword'⟩ := getCompact_parts hne
  rw [hscaled] at hword'
  have hsize : nSize' = nSize := by
    rcases lt_trichotomy nSize' nSize with hless | heq | hmore
    · obtain ⟨k, rfl⟩ := Nat.exists_eq_add_of_lt hless
      rw [add_assoc, pow_add, pow_succ, ← mul_assoc, mul_right_comm,
        Nat.mul_div_cancel _ (by positivity)] at hword'
      have hpow : 1 ≤ 256 ^ k := one_le_pow _ _ (by omega)
      nlinarith
    · exact heq
    · obtain ⟨k, rfl⟩ := Nat.exists_eq_add_of_lt hmore
      rw [add_assoc, pow_add, mul_comm (256 ^ nSize), Nat.mul_div_mul_right _ _ (by positivity),
        pow_succ', ← Nat.div_div_eq_div_mul] at hword'
      have hle := div_le_self (nWord / 256) (256 ^ k)
      omega
  rw [hsize, Nat.mul_div_cancel _ (by positivity)] at hword'
  rw [hcompact, hsize, hword', ← hnat, UInt32.ofNat_toNat]

/-- Encoding a target gives the largest encodable one that is not above it, without a flag;
canonical encodings come back; and the flags report the sign and the size of what was encoded. -/
theorem compact_targets : (∀ target : UInt256, (setCompact (getCompact target)).fNegative = false ∧
      (setCompact (getCompact target)).fOverflow = false ∧
      (setCompact (getCompact target)).target ≤ target ∧
      ∀ nCompact, (setCompact nCompact).fNegative = false →
        (setCompact nCompact).fOverflow = false → (setCompact nCompact).target ≤ target →
          (setCompact nCompact).target ≤ (setCompact (getCompact target)).target) ∧
    (∀ nCompact, isCanonicalCompact nCompact → getCompact (setCompact nCompact).target = nCompact) ∧
    ∀ nCompact, ((setCompact nCompact).fNegative ↔ encodedTarget nCompact < 0) ∧
      ((setCompact nCompact).fOverflow ↔ 2 ^ 256 ≤ (encodedTarget nCompact).natAbs) := by
  refine ⟨fun target => ?_, fun _ => getCompact_setCompact,
    fun nCompact => ⟨(setCompact_spec nCompact).1, (setCompact_spec nCompact).2.1⟩⟩
  obtain ⟨hnegative, hoverflow, hle, -⟩ := setCompact_getCompact target
  refine ⟨hnegative, hoverflow, hle, fun nCompact _ hfits hless => ?_⟩
  obtain ⟨nSize, nWord, hvalue, hle, -, hmax⟩ := getCompact_spec target
  have hword : nCompact.toNat % 2 ^ 23 < 2 ^ 23 := mod_lt _ (by decide)
  obtain ⟨-, hoverflow', htarget'⟩ := setCompact_spec nCompact
  obtain ⟨-, -, htarget⟩ := setCompact_spec (getCompact target)
  rw [hvalue, Int.natAbs_natCast, mod_eq_of_lt (hle.trans_lt target.isLt)] at htarget
  rw [hfits, natAbs_encodedTarget] at hoverflow'
  rw [natAbs_encodedTarget, mod_eq_of_lt (by simpa using hoverflow')] at htarget'
  rw [BitVec.le_def, htarget'] at hless ⊢
  rw [htarget]
  exact hmax _ _ hword hless

end ImageCoin
