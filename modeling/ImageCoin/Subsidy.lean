import ImageCoin.Amount
import ImageCoin.ChainParams

/-!
# Block subsidy

`GetBlockSubsidy` with its floating-point difficulty read over the rationals, and the supply it
issues on the main network.
-/

namespace ImageCoin

open Finset Function Nat

/-- `0xffff / (nBits & 0xffffff)`; with a zero mantissa the double is
infinite, which is `none`. -/
def mantissaDifficulty (nBits : UInt32) : Option ℚ :=
  let nWord : ℕ := nBits.toNat % 2 ^ 24
  if nWord = 0 then none else some (0xffff / nWord)

def convertBitsToDouble (nBits : UInt32) : Option ℚ :=
  let nShift := nBits.toNat / 2 ^ 24
  (mantissaDifficulty nBits).map fun dDiff =>
    dDiff * 256 ^ (29 - nShift) / 256 ^ (nShift - 29)

def squareRatio (numerator : ℚ) (denominator : ℚ → ℚ) : Option ℚ → ℤ
  | none => 0
  | some dDiff => ⌊numerator / denominator dDiff ^ 2⌋

def clampBase (base above high below low : ℤ) : ℤ :=
  if base > above then high else if base < below then low else base

def difficultyAt (params : ConsensusParams) (nPrevBits : UInt32) (nPrevHeight : ℕ) : Option ℚ :=
  if nPrevHeight ≤ 1000 ∧ params.networkID = .main then
    mantissaDifficulty nPrevBits
  else convertBitsToDouble nPrevBits

def subsidyBase (params : ConsensusParams) (nPrevBits : UInt32) (nPrevHeight : ℕ) : ℤ :=
  let dDiff := difficultyAt params nPrevBits nPrevHeight
  if nPrevHeight < 500 then
    -- Early ages
    clampBase (squareRatio 1111 (· + 1) dDiff) 500 10000 1 1
  else if dDiff.any (· ≤ 75) ∧ nPrevHeight < 1000 then
    -- CPU mining era
    clampBase (squareRatio 11111 (fun x => (x + 51) / 6) dDiff) 18 1800 18 1000
  else
    -- GPU/ASIC mining era
    clampBase (squareRatio 2222222 (fun x => (x + 2600) / 9) dDiff) 8 8 5 5

def decline (nSubsidy : CAmount) : CAmount := nSubsidy - nSubsidy / 14

def declineLoop (interval nPrevHeight : ℕ) : ℕ → ℕ → CAmount → CAmount
  | 0, _, nSubsidy => nSubsidy
  | fuel + 1, i, nSubsidy =>
    if i ≤ nPrevHeight then
      declineLoop interval nPrevHeight fuel (i + interval) (decline nSubsidy)
    else nSubsidy

def declinedSubsidy (params : ConsensusParams) (nPrevBits : UInt32) (nPrevHeight : ℕ) : CAmount :=
  declineLoop params.nSubsidyHalvingInterval nPrevHeight nPrevHeight
    params.nSubsidyHalvingInterval
    (Int64.ofInt (subsidyBase params nPrevBits nPrevHeight) * coin)

def getBlockSubsidy (params : ConsensusParams) (nPrevBits : UInt32)
    (nPrevHeight : ℕ) (fSuperblockPartOnly : Bool) : CAmount :=
  let nSubsidy := declinedSubsidy params nPrevBits nPrevHeight
  let nSuperblockPart :=
    if nPrevHeight > params.nBudgetPaymentsStartBlock then nSubsidy / 10 else 0
  if fSuperblockPartOnly then nSuperblockPart else nSubsidy - nSuperblockPart

def declineInt (s : ℤ) : ℤ := s - s / 14

variable {nSubsidy : CAmount}

theorem decline_toInt (hpos : 0 ≤ nSubsidy.toInt) :
    (decline nSubsidy).toInt = declineInt nSubsidy.toInt := by
  have hmax := nSubsidy.toInt_lt
  have hdiv : (nSubsidy / 14).toInt = nSubsidy.toInt / 14 := by
    rw [Int64.toInt_div, show (14 : Int64).toInt = 14 from rfl, Int.tdiv_eq_ediv_of_nonneg hpos]
    exact Int.bmod_eq_of_le (by omega) (by omega)
  rw [decline, toInt_sub_of_fits (by omega) (by omega), hdiv, declineInt]

theorem declineInt_nonneg {s : ℤ} (hs : 0 ≤ s) : 0 ≤ declineInt s := by
  simp only [declineInt]
  omega

theorem declineInt_mono : Monotone declineInt := by
  intro s t hst
  simp only [declineInt]
  omega

theorem declineInt_contracts (s : ℤ) : 14 * (declineInt s - 13) ≤ 13 * (s - 13) := by
  simp only [declineInt]
  omega

theorem iterate_decline_toInt (years : ℕ) (hpos : 0 ≤ nSubsidy.toInt) :
    (decline^[years] nSubsidy).toInt = declineInt^[years] nSubsidy.toInt := by
  induction years generalizing nSubsidy with
  | zero => rfl
  | succ years ih =>
    rw [iterate_succ_apply, iterate_succ_apply,
      ih (decline_toInt hpos ▸ declineInt_nonneg hpos), decline_toInt hpos]

theorem declineLoop_eq_iterate {interval nPrevHeight : ℕ}
    (hinterval : 0 < interval) (fuel years : ℕ) (nSubsidy : CAmount)
    (hfuel : nPrevHeight / interval ≤ years + fuel) (hyears : years ≤ nPrevHeight / interval) :
    declineLoop interval nPrevHeight fuel ((years + 1) * interval) nSubsidy =
      decline^[nPrevHeight / interval - years] nSubsidy := by
  induction fuel generalizing years nSubsidy with
  | zero =>
    have hdone : nPrevHeight / interval - years = 0 := by omega
    rw [hdone]
    rfl
  | succ fuel ih =>
    rw [declineLoop]
    by_cases hmore : (years + 1) * interval ≤ nPrevHeight
    · have hle : years + 1 ≤ nPrevHeight / interval :=
        (le_div_iff_mul_le hinterval).mpr hmore
      have hnext : (years + 1) * interval + interval = (years + 1 + 1) * interval := by ring
      have hsub : nPrevHeight / interval - years =
          nPrevHeight / interval - (years + 1) + 1 := by omega
      rw [if_pos hmore, hnext, ih (years + 1) _ (by omega) hle, hsub, iterate_succ_apply]
    · have hlt : nPrevHeight / interval < years + 1 :=
        Nat.lt_of_not_le fun hle =>
          hmore ((le_div_iff_mul_le hinterval).mp hle)
      have hdone : nPrevHeight / interval - years = 0 := by omega
      rw [if_neg hmore, hdone]
      rfl

variable (nPrevHeight : ℕ)

def subsidyCap : ℤ :=
  if nPrevHeight < 500 then 10000 else if nPrevHeight < 1000 then 1800 else 8

theorem clampBase_bounds {base above high below low : ℤ}
    (hclamps : 1 ≤ low ∧ low ≤ high ∧ 1 ≤ below ∧ above ≤ high) :
    1 ≤ clampBase base above high below low ∧ clampBase base above high below low ≤ high := by
  unfold clampBase
  split_ifs <;> omega

theorem subsidyBase_bounds (params : ConsensusParams) (nPrevBits : UInt32) (nPrevHeight : ℕ) :
    1 ≤ subsidyBase params nPrevBits nPrevHeight ∧
      subsidyBase params nPrevBits nPrevHeight ≤ subsidyCap nPrevHeight := by
  simp only [subsidyBase, subsidyCap]
  split_ifs with hearly hcpu hcpuHeight hheight
  · exact clampBase_bounds (by decide)
  · exact clampBase_bounds (by decide)
  · exact absurd hcpu.2 hcpuHeight
  · exact (clampBase_bounds (by decide)).imp_right fun hhigh => hhigh.trans (by decide)
  · exact clampBase_bounds (by decide)

def easiestBits : UInt32 := 0x1e0fffff

theorem validTarget_easiestBits : validTarget mainParams easiestBits := by
  decide

theorem subsidyBase_easiestBits :
    subsidyBase mainParams easiestBits nPrevHeight = subsidyCap nPrevHeight := by
  have hmantissa : mantissaDifficulty easiestBits = some (65535 / 1048575) := by decide +kernel
  have hconvert : convertBitsToDouble easiestBits =
      some (65535 / 1048575 / 256) := by decide +kernel
  have hasic : ∀ dDiff ∈ [(65535 / 1048575 : ℚ), 65535 / 1048575 / 256],
      clampBase (squareRatio 2222222 (fun x => (x + 2600) / 9) (some dDiff))
        8 8 5 5 = 8 := by decide +kernel
  rcases lt_or_ge nPrevHeight 500 with hearly | hearly
  · have hmain : nPrevHeight ≤ 1000 ∧ mainParams.networkID = .main :=
      ⟨by omega, rfl⟩
    simp only [subsidyBase, difficultyAt, subsidyCap, if_pos hmain, if_pos hearly]
    decide +kernel
  rcases lt_or_ge nPrevHeight 1000 with hcpu | hcpu
  · have hmain : nPrevHeight ≤ 1000 ∧ mainParams.networkID = .main :=
      ⟨by omega, rfl⟩
    have hdiff : (some (65535 / 1048575 : ℚ)).any (· ≤ 75) := by
      decide +kernel
    simp only [subsidyBase, difficultyAt, subsidyCap, if_pos hmain, if_neg hearly.not_gt, hcpu]
    decide +kernel
  · simp [subsidyBase, difficultyAt, subsidyCap, if_neg hearly.not_gt, hcpu.not_gt, hmantissa,
      hconvert]
    split_ifs
    · exact hasic _ (by simp)
    · exact hasic _ (by simp)

/-! ## The supply of the main network -/

variable (nPrevBits : UInt32)

def fullSubsidy (nPrevHeight : ℕ) : ℤ :=
  (getBlockSubsidy mainParams nPrevBits nPrevHeight false).toInt +
    (getBlockSubsidy mainParams nPrevBits nPrevHeight true).toInt

/-- Everything issued on top of the heights below `height`, where `nBits h` is
the compact target of the block at height `h`. -/
def issued (nBits : ℕ → UInt32) (height : ℕ) : ℤ :=
  ∑ h ∈ range height, fullSubsidy (nBits h) h

theorem subsidyCap_le : subsidyCap nPrevHeight ≤ 10000 := by
  unfold subsidyCap
  split_ifs <;> omega

theorem toInt_subsidyBase_mul_coin (params : ConsensusParams)
    (nPrevBits : UInt32) (nPrevHeight : ℕ) :
    (Int64.ofInt (subsidyBase params nPrevBits nPrevHeight) * coin).toInt =
      subsidyBase params nPrevBits nPrevHeight * 100000000 := by
  have hbounds := subsidyBase_bounds params nPrevBits nPrevHeight
  have hcap := subsidyCap_le nPrevHeight
  rw [Int64.toInt_mul, Int64.toInt_ofInt_of_le (by omega) (by omega),
    show coin.toInt = 100000000 from rfl]
  exact Int.bmod_eq_of_le (by omega) (by omega)

theorem iterate_declineInt_bounds (years : ℕ) {s : ℤ} (hs : 0 ≤ s) :
    0 ≤ declineInt^[years] s ∧ declineInt^[years] s ≤ s := by
  induction years generalizing s with
  | zero => exact ⟨hs, le_rfl⟩
  | succ years ih =>
    have hnext := ih (declineInt_nonneg hs)
    have hstep : declineInt s ≤ s := by
      simp only [declineInt]
      omega
    exact ⟨hnext.1, hnext.2.trans hstep⟩

variable {params : ConsensusParams}

section
variable (hinterval : 0 < params.nSubsidyHalvingInterval)
include hinterval

theorem declinedSubsidy_toInt (nPrevBits : UInt32) (nPrevHeight : ℕ) :
    (declinedSubsidy params nPrevBits nPrevHeight).toInt =
      declineInt^[nPrevHeight / params.nSubsidyHalvingInterval]
        (subsidyBase params nPrevBits nPrevHeight * 100000000) := by
  have hbounds := subsidyBase_bounds params nPrevBits nPrevHeight
  have hstart := toInt_subsidyBase_mul_coin params nPrevBits nPrevHeight
  have hfuel := div_le_self nPrevHeight params.nSubsidyHalvingInterval
  have hloop := declineLoop_eq_iterate hinterval nPrevHeight 0
    (Int64.ofInt (subsidyBase params nPrevBits nPrevHeight) * coin) (by rwa [zero_add]) (zero_le _)
  rw [zero_add, one_mul, Nat.sub_zero] at hloop
  rw [declinedSubsidy, hloop, iterate_decline_toInt _ (by omega), hstart]

theorem declinedSubsidy_bounds (nPrevBits : UInt32) (nPrevHeight : ℕ) :
    0 ≤ (declinedSubsidy params nPrevBits nPrevHeight).toInt ∧
      (declinedSubsidy params nPrevBits nPrevHeight).toInt ≤
        1000000000000 := by
  have hbounds := subsidyBase_bounds params nPrevBits nPrevHeight
  have hcap := subsidyCap_le nPrevHeight
  have hstart : 0 ≤ subsidyBase params nPrevBits nPrevHeight * 100000000 := by
    omega
  have hyears := iterate_declineInt_bounds (nPrevHeight / params.nSubsidyHalvingInterval) hstart
  rw [declinedSubsidy_toInt hinterval]
  omega

theorem superblockPart_toInt (nPrevBits : UInt32) (nPrevHeight : ℕ) :
    (getBlockSubsidy params nPrevBits nPrevHeight true).toInt =
      if nPrevHeight > params.nBudgetPaymentsStartBlock then
        (declinedSubsidy params nPrevBits nPrevHeight).toInt / 10
      else 0 := by
  have hbounds := declinedSubsidy_bounds hinterval nPrevBits nPrevHeight
  simp only [getBlockSubsidy, if_true]
  split_ifs
  · rw [Int64.toInt_div, show (10 : Int64).toInt = 10 from rfl,
      Int.tdiv_eq_ediv_of_nonneg hbounds.1]
    exact Int.bmod_eq_of_le (by omega) (by omega)
  · rfl

theorem minerPart_add_superblockPart (nPrevBits : UInt32) (nPrevHeight : ℕ) :
    (getBlockSubsidy params nPrevBits nPrevHeight false).toInt +
        (getBlockSubsidy params nPrevBits nPrevHeight true).toInt =
      (declinedSubsidy params nPrevBits nPrevHeight).toInt := by
  have hbounds := declinedSubsidy_bounds hinterval nPrevBits nPrevHeight
  have hpart := superblockPart_toInt hinterval nPrevBits nPrevHeight
  have hsplit : getBlockSubsidy params nPrevBits nPrevHeight false =
      declinedSubsidy params nPrevBits nPrevHeight -
        getBlockSubsidy params nPrevBits nPrevHeight true := by
    simp [getBlockSubsidy]
  rw [hsplit, toInt_sub_of_fits (by omega) (by omega)]
  omega

end

theorem fullSubsidy_eq (nPrevHeight : ℕ) :
    fullSubsidy nPrevBits nPrevHeight = declineInt^[nPrevHeight / 210240]
        (subsidyBase mainParams nPrevBits nPrevHeight * 100000000) := by
  have hinterval : 0 < mainParams.nSubsidyHalvingInterval := by decide
  rw [fullSubsidy, minerPart_add_superblockPart hinterval, declinedSubsidy_toInt hinterval]
  rfl

theorem fullSubsidy_le_easiestBits (nPrevHeight : ℕ) :
    fullSubsidy nPrevBits nPrevHeight ≤ fullSubsidy easiestBits nPrevHeight := by
  have hbounds := subsidyBase_bounds mainParams nPrevBits nPrevHeight
  rw [fullSubsidy_eq, fullSubsidy_eq, subsidyBase_easiestBits]
  exact declineInt_mono.iterate _ (by omega)

variable (year : ℕ)

def yearlySubsidy : ℤ := declineInt^[year] 800000000

theorem yearlySubsidy_succ : yearlySubsidy (year + 1) = declineInt (yearlySubsidy year) :=
  iterate_succ_apply' ..

def eraBonus : ℤ := (subsidyCap nPrevHeight - 8) * 100000000

theorem fullSubsidy_easiestBits : fullSubsidy easiestBits nPrevHeight =
    eraBonus nPrevHeight + yearlySubsidy (nPrevHeight / 210240) := by
  rw [fullSubsidy_eq, subsidyBase_easiestBits]
  by_cases hera : nPrevHeight < 1000
  · have hyear : nPrevHeight / 210240 = 0 := by omega
    simp only [hyear, iterate_zero, id, yearlySubsidy, eraBonus]
    ring
  · have hcap : subsidyCap nPrevHeight = 8 := by
      simp only [subsidyCap]
      split_ifs <;> omega
    simp [hcap, eraBonus, yearlySubsidy]

theorem sum_eraBonus (height : ℕ) : ∑ h ∈ range height, eraBonus h =
    999200000000 * (min height 500 : ℕ) + 179200000000 * (min height 1000 - 500 : ℕ) := by
  induction height with
  | zero => simp
  | succ height ih =>
    rw [sum_range_succ, ih, eraBonus, subsidyCap]
    split_ifs <;> omega

theorem sum_yearlySubsidy_invariant (height : ℕ) :
    ∑ h ∈ range height, (yearlySubsidy (h / 210240) - 13) +
        (14 * 210240 - (height % 210240 : ℕ)) * (yearlySubsidy (height / 210240) - 13) ≤
      14 * 210240 * (800000000 - 13) := by
  induction height with
  | zero => simp [yearlySubsidy]
  | succ height ih =>
    rw [sum_range_succ]
    by_cases hyear : (height + 1) % 210240 = 0
    · have hdiv : (height + 1) / 210240 = height / 210240 + 1 := by omega
      have hmod : height % 210240 = 210239 := by omega
      have hnext := declineInt_contracts (yearlySubsidy (height / 210240))
      rw [hmod] at ih
      rw [hyear, hdiv, yearlySubsidy_succ]
      omega
    · have hdiv : (height + 1) / 210240 = height / 210240 := by omega
      have hmod : (height + 1) % 210240 = height % 210240 + 1 := by omega
      rw [hdiv, hmod]
      push_cast at ih ⊢
      linarith

theorem thirteen_le_yearlySubsidy : 13 ≤ yearlySubsidy year := by
  induction year with
  | zero => simp [yearlySubsidy]
  | succ year ih =>
    rw [yearlySubsidy_succ]
    simp only [declineInt]
    omega

theorem sum_yearlySubsidy_le (height : ℕ) : ∑ h ∈ range height, yearlySubsidy (h / 210240) ≤
    14 * 210240 * (800000000 - 13) + 13 * height := by
  have hinv := sum_yearlySubsidy_invariant height
  have hyear := thirteen_le_yearlySubsidy (height / 210240)
  have hrest : 0 ≤ (14 * 210240 - ((height % 210240 : ℕ) : ℤ)) *
      (yearlySubsidy (height / 210240) - 13) :=
    mul_nonneg (by omega) (by omega)
  rw [sum_sub_distrib, sum_const, card_range, nsmul_eq_mul] at hinv
  linarith

theorem issued_le_easiestBits (nBits : ℕ → UInt32) (height : ℕ) :
    issued nBits height ≤ issued (fun _ => easiestBits) height :=
  sum_le_sum fun h _ => fullSubsidy_le_easiestBits (nBits h) h

theorem issued_easiestBits (height : ℕ) : issued (fun _ => easiestBits) height =
    ∑ h ∈ range height, eraBonus h + ∑ h ∈ range height, yearlySubsidy (h / 210240) := by
  rw [← sum_add_distrib]
  exact sum_congr rfl fun h _ => fullSubsidy_easiestBits h

/-- Supply bound of the main network: no sequence of targets issues more than
the easiest one, and that issues at most 29438880 coins and, once the decline
has reached its fixed point, 13 units a block. -/
theorem issued_le (nBits : ℕ → UInt32) (height : ℕ) :
    issued nBits height ≤ issued (fun _ => easiestBits) height ∧
      issued nBits height ≤ 29438880 * coin.toInt + 13 * height := by
  have heasiest := issued_le_easiestBits nBits height
  refine ⟨heasiest, heasiest.trans ?_⟩
  have hyears := sum_yearlySubsidy_le height
  rw [issued_easiestBits, sum_eraBonus,
    show coin.toInt = 100000000 from rfl]
  omega

theorem sum_yearlySubsidy_years (years : ℕ) :
    ∑ h ∈ range (years * 210240), yearlySubsidy (h / 210240) =
      210240 * ∑ year ∈ range years, yearlySubsidy year := by
  induction years with
  | zero => simp
  | succ years ih =>
    have hyear : ∑ j ∈ range 210240, yearlySubsidy ((years * 210240 + j) / 210240) =
          210240 * yearlySubsidy years := by
      rw [sum_congr rfl fun j hj => ?_, sum_const, card_range, nsmul_eq_mul, cast_ofNat]
      have hlt := mem_range.mp hj
      rw [show (years * 210240 + j) / 210240 = years by omega]
    rw [succ_mul, sum_range_add, ih, hyear, sum_range_succ, mul_add]

/-- At the easiest target the total passes `MAX_MONEY` within fifteen
years. -/
theorem maxMoney_lt_issued_easiestBits :
    ∃ nBits : ℕ → UInt32, (∀ h, validTarget mainParams (nBits h)) ∧
      ∃ height, maxMoney.toInt < issued nBits height := by
  refine ⟨fun _ => easiestBits, fun _ => validTarget_easiestBits, 15 * 210240, ?_⟩
  rw [issued_easiestBits, sum_eraBonus, sum_yearlySubsidy_years, maxMoney_toInt]
  decide +kernel

end ImageCoin
