import ImageCoin.Chain
import ImageCoin.CompactTarget

/-!
# The difficulty retarget

`DarkGravityWave` forms a weighted average of the targets of the last 24 blocks, scales it by
the time they took, within a factor of three, and limits it to `powLimit`.
-/

namespace ImageCoin

open BlockTree Nat BitVec Option

/-- Products and sums of targets. -/
structure TargetOps where
  mul : UInt256 → ℕ → Option UInt256
  add : UInt256 → UInt256 → Option UInt256

def wrappingOps : TargetOps where
  mul a n := some (a * BitVec.ofNat 256 n)
  add a b := some (a + b)

def exactOps : TargetOps where
  mul a n :=
    if a.toNat * n < 2 ^ 256 then some (a * BitVec.ofNat 256 n) else none
  add a b := if a.toNat + b.toNat < 2 ^ 256 then some (a + b) else none

def nPowTargetSpacing : Network → ℤ
  | .main => 60
  | .test => 150
  | .regtest => 150

def nPastBlocks : ℕ := 24

section
variable {ι : Type} (ops : TargetOps) (m : ChainEntries ι)

def nextAverage (nCountBlocks : ℕ) (bnPastTargetAvg bnTarget : UInt256) : Option UInt256 :=
  if nCountBlocks = 1 then some bnTarget
  else do
    let product ← ops.mul bnPastTargetAvg nCountBlocks
    let sum ← ops.add product bnTarget
    return sum / BitVec.ofNat 256 (nCountBlocks + 1)

/-- The loop over the past blocks, with the block it ends at; there is no result
if the assertion on `pprev` fails. -/
def pastTargetLoop : ℕ → ℕ → ι → UInt256 → Option (UInt256 × ι)
  | 0, _, pindex, bnPastTargetAvg => some (bnPastTargetAvg, pindex)
  | left + 1, nCountBlocks, pindex, bnPastTargetAvg => do
      let bnPastTargetAvg ← nextAverage ops nCountBlocks bnPastTargetAvg
        (setCompact (m.nBits pindex)).target
      if nCountBlocks ≠ nPastBlocks then
        let pindex ← m.pprev pindex
        pastTargetLoop left (nCountBlocks + 1) pindex bnPastTargetAvg
      else return (bnPastTargetAvg, pindex)

def clampTimespan (nTargetTimespan nActualTimespan : ℤ) : ℤ :=
  let nActualTimespan :=
    if nActualTimespan < nTargetTimespan / 3 then nTargetTimespan / 3
    else nActualTimespan
  if nActualTimespan > nTargetTimespan * 3 then nTargetTimespan * 3
  else nActualTimespan

variable (net : Network)

def retarget (pindexLast : ι) : Option UInt256 := do
  let (bnPastTargetAvg, pindex) ←
    pastTargetLoop ops m nPastBlocks 1 pindexLast 0
  let nActualTimespan : ℤ :=
    (m.nTime pindexLast).toNat - (m.nTime pindex).toNat
  let nTargetTimespan := nPastBlocks * nPowTargetSpacing net
  let nActualTimespan := clampTimespan nTargetTimespan nActualTimespan
  let bnNew ← ops.mul bnPastTargetAvg nActualTimespan.toNat
  let bnNew := bnNew / BitVec.ofNat 256 nTargetTimespan.toNat
  return if bnNew > (consensusParams net).powLimit then
    (consensusParams net).powLimit
  else bnNew

def darkGravityWave (pindexLast : Option ι) : Option UInt32 :=
  match pindexLast with
  | none => some (getCompact (consensusParams net).powLimit)
  | some pindexLast =>
    if m.nHeight pindexLast < nPastBlocks then
      some (getCompact (consensusParams net).powLimit)
    else (retarget ops m net pindexLast).map getCompact

end

section
variable {limit : ℕ}

theorem nextAverage_eq (nCountBlocks : ℕ) (hcount : nCountBlocks ≤ nPastBlocks)
    {avg target : UInt256} (havg : avg.toNat ≤ limit)
    (htarget : target.toNat ≤ limit) (hlimit : limit * 25 < 2 ^ 256) :
    ∃ next, nextAverage exactOps nCountBlocks avg target = some next ∧
      nextAverage wrappingOps nCountBlocks avg target = some next ∧
      next.toNat ≤ limit := by
  by_cases hone : nCountBlocks = 1
  · exact ⟨target, if_pos hone, if_pos hone, htarget⟩
  · have hsmall : nCountBlocks ≤ 24 := hcount
    have hproduct : avg.toNat * nCountBlocks ≤ limit * nCountBlocks :=
      mul_le_mul_right _ havg
    have hmany : limit * (nCountBlocks + 1) ≤ limit * 25 :=
      mul_le_mul_left _ (by omega)
    have hsplit : limit * (nCountBlocks + 1) = limit * nCountBlocks + limit :=
      mul_succ _ _
    have hmul : (avg * BitVec.ofNat 256 nCountBlocks).toNat = avg.toNat * nCountBlocks := by
      rw [toNat_mul, toNat_ofNat,
        mod_eq_of_lt (by omega : nCountBlocks < 2 ^ 256), mod_eq_of_lt (by omega)]
    have hadd : (avg * BitVec.ofNat 256 nCountBlocks + target).toNat =
        avg.toNat * nCountBlocks + target.toNat := by
      rw [toNat_add, hmul, mod_eq_of_lt (by omega)]
    refine ⟨(avg * BitVec.ofNat 256 nCountBlocks + target) /
      BitVec.ofNat 256 (nCountBlocks + 1), ?_, ?_, ?_⟩
    · rw [nextAverage, if_neg hone]
      simp only [exactOps, bind_eq_bind]
      rw [if_pos (by omega), bind_some, hmul, if_pos (by omega)]
      rfl
    · rw [nextAverage, if_neg hone]
      rfl
    · rw [toNat_udiv, hadd, toNat_ofNat, mod_eq_of_lt (by omega : nCountBlocks + 1 < 2 ^ 256)]
      apply Nat.div_le_of_le_mul
      rw [Nat.mul_comm (nCountBlocks + 1)]
      omega

variable {ι : Type} {m : BlockChains ι}

theorem pastTargetLoop_eq (hlimit : limit * 25 < 2 ^ 256) (left : ℕ) :
    ∀ (nCountBlocks : ℕ) (pindex : ι) (avg : UInt256),
      nCountBlocks + left = nPastBlocks + 1 → left ≤ m.nHeight pindex + 1 →
      (∀ a height, m.tree.ancestor pindex height = some a →
        (setCompact (m.nBits a)).target.toNat ≤ limit) →
      avg.toNat ≤ limit →
      ∃ next last, pastTargetLoop exactOps m.toChainEntries left nCountBlocks pindex avg =
          some (next, last) ∧
        pastTargetLoop wrappingOps m.toChainEntries left nCountBlocks pindex avg =
          some (next, last) ∧
        next.toNat ≤ limit := by
  induction left with
  | zero =>
    intro nCountBlocks pindex avg _ _ _ havg
    exact ⟨avg, pindex, rfl, rfl, havg⟩
  | succ left ih =>
    intro nCountBlocks pindex avg hcount hheight htargets havg
    obtain ⟨next, hexact, hwrapping, hnext⟩ :=
      nextAverage_eq nCountBlocks (by omega) havg (htargets pindex _ ancestor_self) hlimit
    simp only [pastTargetLoop, hexact, hwrapping]
    split_ifs with hlast
    · cases hparent : m.pprev pindex with
      | none =>
        have hroot := m.nHeight_root hparent
        omega
      | some p =>
        have hchild := m.nHeight_child hparent
        have hp : m.tree.parent pindex = some p := hparent
        exact ih _ p next (by omega) (by omega) (fun a height ha => htargets a height (by
            rwa [← ancestor_of_ancestor (ancestor_parent hp) (height_of_ancestor ha).2]))
          hnext
    · exact ⟨next, pindex, rfl, rfl, hnext⟩

end

theorem clampTimespan_bounds (nActualTimespan : ℤ) : 480 ≤ clampTimespan 1440 nActualTimespan ∧
    clampTimespan 1440 nActualTimespan ≤ 4320 := by
  simp only [clampTimespan]
  split_ifs <;> omega

theorem powLimit_lt : mainParams.powLimit.toNat < 2 ^ 236 := by decide

theorem retarget_eq {ι : Type} (m : ChainEntries ι) (pindexLast last : ι)
    {avg : UInt256} (havg : avg ≤ mainParams.powLimit) :
    ∃ bnNew : UInt256, (∀ ops, ops = exactOps ∨ ops = wrappingOps →
        pastTargetLoop ops m nPastBlocks 1 pindexLast 0 = some (avg, last) →
        retarget ops m .main pindexLast = some bnNew) ∧
      avg.toNat / 3 ≤ bnNew.toNat ∧ bnNew.toNat ≤ 3 * avg.toNat ∧
      bnNew ≤ mainParams.powLimit := by
  have hlimit := powLimit_lt
  rw [le_def] at havg
  obtain ⟨span, hspan⟩ : ∃ span : ℕ, clampTimespan 1440
      ((m.nTime pindexLast).toNat - (m.nTime last).toNat) = span :=
    Int.eq_ofNat_of_zero_le (le_trans (by omega) (clampTimespan_bounds _).1)
  have hbounds := clampTimespan_bounds ((m.nTime pindexLast).toNat - (m.nTime last).toNat)
  have hlow : avg.toNat * 480 ≤ avg.toNat * span :=
    mul_le_mul_left _ (by omega)
  have hhigh : avg.toNat * span ≤ avg.toNat * 4320 :=
    mul_le_mul_left _ (by omega)
  have hmul : (avg * BitVec.ofNat 256 span).toNat = avg.toNat * span := by
    rw [toNat_mul, toNat_ofNat, mod_eq_of_lt (by omega : span < 2 ^ 256), mod_eq_of_lt (by omega)]
  have hdiv : (avg * BitVec.ofNat 256 span / BitVec.ofNat 256 1440).toNat =
      avg.toNat * span / 1440 := by
    rw [toNat_udiv, hmul]
    rfl
  refine ⟨if avg * BitVec.ofNat 256 span / BitVec.ofNat 256 1440 >
      mainParams.powLimit then mainParams.powLimit
    else avg * BitVec.ofNat 256 span / BitVec.ofNat 256 1440, ?_, ?_⟩
  · intro ops hops hloop
    have hscale : ops.mul avg span = some (avg * BitVec.ofNat 256 span) := by
      rcases hops with rfl | rfl
      · exact if_pos (by omega)
      · rfl
    have htimespan : (nPastBlocks : ℤ) * nPowTargetSpacing .main = 1440 := rfl
    simp only [retarget, hloop, bind_eq_bind, bind_some, htimespan,
      hspan, Int.toNat_natCast, hscale]
    rfl
  · split_ifs with hover
    · rw [gt_iff_lt, lt_def, hdiv] at hover
      rw [le_def]
      omega
    · rw [gt_iff_lt, BitVec.not_lt, BitVec.le_def, hdiv] at hover
      rw [le_def, hdiv]
      omega

/-- On the main network nothing wraps around, the new target is within a factor
of three of the average and at most `powLimit`, and the compact value passes the
range check of `CheckProofOfWork`. -/
theorem darkGravityWave_safe {ι : Type} (m : BlockChains ι) (pindexLast : ι)
    (hlong : nPastBlocks ≤ m.nHeight pindexLast)
    (htargets : ∀ a height, m.tree.ancestor pindexLast height = some a →
    0 < (setCompact (m.nBits a)).target ∧ (setCompact (m.nBits a)).target ≤ mainParams.powLimit) :
    ∃ avg last bnNew nBits, pastTargetLoop exactOps m.toChainEntries nPastBlocks 1 pindexLast 0 =
        some (avg, last) ∧
      pastTargetLoop wrappingOps m.toChainEntries nPastBlocks 1 pindexLast 0 = some (avg, last) ∧
      retarget exactOps m.toChainEntries .main pindexLast = some bnNew ∧
      retarget wrappingOps m.toChainEntries .main pindexLast = some bnNew ∧
      darkGravityWave wrappingOps m.toChainEntries .main (some pindexLast) = some nBits ∧
      avg.toNat / 3 ≤ bnNew.toNat ∧ bnNew.toNat ≤ 3 * avg.toNat ∧
      bnNew ≤ mainParams.powLimit ∧
      (setCompact nBits).fNegative = false ∧
      (setCompact nBits).fOverflow = false ∧
      (setCompact nBits).target ≤ mainParams.powLimit ∧
      (3 ≤ avg.toNat → (setCompact nBits).target ≠ 0 ∧ validTarget mainParams nBits) := by
  have hlimit := powLimit_lt
  obtain ⟨avg, last, hexact, hwrapping, havg⟩ :=
    pastTargetLoop_eq (show mainParams.powLimit.toNat * 25 < 2 ^ 256 by omega)
      nPastBlocks 1 pindexLast 0 (add_comm _ _) (by omega)
      (fun a height ha => le_def.mp (htargets a height ha).2) (zero_le _)
  obtain ⟨bnNew, hretarget, hlow, hhigh, hmax⟩ :=
    retarget_eq m.toChainEntries pindexLast last (le_def.mpr havg)
  obtain ⟨hnegative, hoverflow, hle, hzero⟩ := setCompact_getCompact bnNew
  refine ⟨avg, last, bnNew, getCompact bnNew, hexact, hwrapping,
    hretarget _ (Or.inl rfl) hexact, hretarget _ (Or.inr rfl) hwrapping, ?_,
    hlow, hhigh, hmax, hnegative, hoverflow, BitVec.le_trans hle hmax, ?_⟩
  · rw [darkGravityWave, if_neg (by omega), hretarget _ (Or.inr rfl) hwrapping, map_some]
  · intro hthree
    have hne : (setCompact (getCompact bnNew)).target ≠ 0 := by
      apply hzero
      rintro rfl
      have hnone : (0 : UInt256).toNat = 0 := rfl
      omega
    refine ⟨hne, ?_⟩
    simpa [validTarget, hnegative, hoverflow, BitVec.le_trans hle hmax] using hne

def slowBlocks : BlockChains (Fin 25) where
  pprev b := if b = 0 then none else some (b - 1)
  pskip b := if b = 0 then none else some (Fin.ofNat 25 (getSkipHeight b))
  nHeight b := b
  nVersion _ := 0x20000000
  nTime b := UInt32.ofNat (1500000000 + 120 * b)
  nBits _ := 0x1e0fffff
  nHeight_root := by decide
  nHeight_child := by decide
  pskip_built := by decide +kernel

theorem darkGravityWave_safe_slow :
    ∃ bnNew, retarget exactOps slowBlocks.toChainEntries .main 24 = some bnNew ∧
      retarget wrappingOps slowBlocks.toChainEntries .main 24 = some bnNew ∧
      bnNew ≤ mainParams.powLimit := by
  obtain ⟨-, -, bnNew, -, -, -, hexact, hwrapping, -, -, -, hmax, -⟩ :=
    darkGravityWave_safe slowBlocks 24 (by decide)
      (fun a height _ => show 0 < (setCompact 0x1e0fffff).target ∧
        (setCompact 0x1e0fffff).target ≤ mainParams.powLimit by decide)
  exact ⟨bnNew, hexact, hwrapping, hmax⟩

end ImageCoin
