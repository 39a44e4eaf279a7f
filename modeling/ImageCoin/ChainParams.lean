import ImageCoin.Serialize

/-!
# Chain parameters and compact targets

The consensus parameters of the three networks that the modelled rules read,
and the compact representation of 256-bit targets from `arith_uint256.cpp`.
-/

namespace ImageCoin

inductive Network where
  | main
  | test
  | regtest
  deriving DecidableEq, Repr

structure ConsensusParams where
  networkID : Network
  nSubsidyHalvingInterval : ℕ
  nBudgetPaymentsStartBlock : ℕ
  nBudgetPaymentsCycleBlocks : ℕ
  nBudgetPaymentsWindowBlocks : ℕ
  nSuperblockStartBlock : ℕ
  nSuperblockCycle : ℕ
  bip34Height : ℤ
  bip34Hash : UInt256
  powLimit : UInt256
  fPowAllowMinDifficultyBlocks : Bool
  deriving DecidableEq

def mainParams : ConsensusParams where
  networkID := .main
  nSubsidyHalvingInterval := 210240
  nBudgetPaymentsStartBlock := 328008
  nBudgetPaymentsCycleBlocks := 16616
  nBudgetPaymentsWindowBlocks := 100
  nSuperblockStartBlock := 614820
  nSuperblockCycle := 16616
  bip34Height := 1
  bip34Hash :=
    0x000007d91d1254d60e2dd1ae580383070a4ddffa4c64c2eeb4a2f9ecc0414343
  powLimit := 0x00000fffff000000000000000000000000000000000000000000000000000000
  fPowAllowMinDifficultyBlocks := false

def testNetParams : ConsensusParams where
  networkID := .test
  nSubsidyHalvingInterval := 210240
  nBudgetPaymentsStartBlock := 4100
  nBudgetPaymentsCycleBlocks := 50
  nBudgetPaymentsWindowBlocks := 10
  nSuperblockStartBlock := 4200
  nSuperblockCycle := 24
  bip34Height := 1
  bip34Hash :=
    0x0000047d24635e347be3aaaeb66c26be94901a2f962feccd4f95090191f208c1
  powLimit := 0x00000fffff000000000000000000000000000000000000000000000000000000
  fPowAllowMinDifficultyBlocks := true

def regTestParams : ConsensusParams where
  networkID := .regtest
  nSubsidyHalvingInterval := 150
  nBudgetPaymentsStartBlock := 1000
  nBudgetPaymentsCycleBlocks := 50
  nBudgetPaymentsWindowBlocks := 10
  nSuperblockStartBlock := 1500
  nSuperblockCycle := 10
  bip34Height := -1
  bip34Hash := 0
  powLimit := 0x7fffffffffffffffffffffffffffffffffffffffffffffffffffffffffffffff
  fPowAllowMinDifficultyBlocks := true

def consensusParams : Network → ConsensusParams
  | .main => mainParams
  | .test => testNetParams
  | .regtest => regTestParams

/-- What `SetCompact` returns. -/
structure Compact where
  target : UInt256
  fNegative : Bool
  fOverflow : Bool
  deriving DecidableEq

def setCompact (nCompact : UInt32) : Compact :=
  let nSize := nCompact.toNat / 2 ^ 24
  let nWord := nCompact.toNat % 2 ^ 23
  -- The flags are computed from the word after this shift.
  let nWord := if nSize ≤ 3 then nWord / 2 ^ (8 * (3 - nSize)) else nWord
  { target :=
      if nSize ≤ 3 then BitVec.ofNat 256 nWord
      else BitVec.ofNat 256 nWord <<< (8 * (nSize - 3))
    fNegative := nWord ≠ 0 && nCompact.toNat.testBit 23
    fOverflow := nWord ≠ 0 && (nSize > 34 || (nWord > 0xff && nSize > 33) ||
        (nWord > 0xffff && nSize > 32)) }

variable (target : UInt256)

def bits : ℕ :=
  if target = 0 then 0 else target.toNat.log2 + 1

def getCompact : UInt32 :=
  let nSize := (bits target + 7) / 8
  let nCompact :=
    if nSize ≤ 3 then
      target.toNat % 2 ^ 64 * 2 ^ (8 * (3 - nSize)) % 2 ^ 32
    else target.toNat / 2 ^ (8 * (nSize - 3)) % 2 ^ 32
  -- The sign bit must stay clear, so a set top bit moves to the next byte.
  if nCompact.testBit 23 then
    UInt32.ofNat (nCompact / 2 ^ 8 + (nSize + 1) * 2 ^ 24)
  else UInt32.ofNat (nCompact + nSize * 2 ^ 24)

def validTarget (params : ConsensusParams) (nBits : UInt32) : Bool :=
  let bnTarget := setCompact nBits
  !bnTarget.fNegative && bnTarget.target ≠ 0 && !bnTarget.fOverflow &&
    bnTarget.target ≤ params.powLimit

end ImageCoin
