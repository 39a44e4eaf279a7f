import ImageCoin.Subsidy
import ImageCoin.Transaction

/-!
# Superblocks and the coinbase value

`IsBlockValueValid` of `masternode-payments.cpp` with the superblock checks of
`governance-classes.cpp` it delegates to.
-/

namespace ImageCoin

structure CGovernancePayment where
  script : CScript
  nAmount : CAmount
  deriving DecidableEq

/-- What the superblock rules read of a governance object, after
`UpdateSentinelVariables`. -/
structure CGovernanceObject where
  fCachedFunding : Bool
  nAbsoluteYesCount : ℤ
  deriving DecidableEq

structure CSuperblock where
  nBlockStart : ℤ
  pGovObj : Option CGovernanceObject
  vecPayments : List CGovernancePayment
  deriving DecidableEq

/-- The node's view: synchronisation, the two sporks that the value rules
read, and `GetActiveTriggers` with its possibly null pointers. -/
structure GovernanceState where
  isSynced : Bool
  superblocksEnabled : Bool
  oldSuperblockFlag : Bool
  vecTriggers : List (Option CSuperblock)

variable (params : ConsensusParams)

def isValidBlockHeight (nBlockHeight : ℕ) : Bool :=
  nBlockHeight ≥ params.nSuperblockStartBlock && nBlockHeight % params.nSuperblockCycle = 0

def paymentsLimitBits : UInt32 :=
  if params.fPowAllowMinDifficultyBlocks then getCompact params.powLimit else 1

def getPaymentsLimit (nBlockHeight : ℕ) : CAmount :=
  if !isValidBlockHeight params nBlockHeight then 0
  else
    getBlockSubsidy params (paymentsLimitBits params) (nBlockHeight - 1) true *
      Int64.ofNat params.nSuperblockCycle

def CSuperblock.getPaymentsTotalAmount (superblock : CSuperblock) : CAmount :=
  superblock.vecPayments.foldl
    (fun nPaymentsTotalAmount payment => nPaymentsTotalAmount + payment.nAmount)
    0

/-- The search of `CSuperblock::IsValid` for one payment, from output
`nVoutIndex` on. -/
def findPayment (payment : CGovernancePayment) (vout : List CTxOut) (nVoutIndex : ℕ) : Option ℕ :=
  ((vout.drop nVoutIndex).findIdx? fun txout =>
    payment.script = txout.scriptPubKey && payment.nAmount = txout.nValue).map (nVoutIndex + ·)

/-- The payments loop.  A match becomes the next starting point, so the next
payment may match the same output again. -/
def matchPayments (vout : List CTxOut) : List CGovernancePayment → ℕ → Bool
  | [], _ => true
  | payment :: payments, nVoutIndex =>
    match findPayment payment vout nVoutIndex with
    | some j => matchPayments vout payments j
    | none => false

def CSuperblock.isValid (superblock : CSuperblock) (params : ConsensusParams)
    (txNew : CTransaction) (nBlockHeight : ℕ) (blockReward : CAmount) :
    Option Bool :=
  if !isValidBlockHeight params nBlockHeight then some false
  else if txNew.vout.length < superblock.vecPayments.length then some false
  else if superblock.getPaymentsTotalAmount > getPaymentsLimit params nBlockHeight then some false
  else do
    let nBlockValue ← txNew.getValueOut
    if nBlockValue > blockReward + superblock.getPaymentsTotalAmount then
      pure false
    else pure (matchPayments txNew.vout superblock.vecPayments 0)

def triggerAt (nBlockHeight : ℕ) (pSuperblock : Option CSuperblock) :
    Option (CSuperblock × CGovernanceObject) := do
  let superblock ← pSuperblock
  let pObj ← superblock.pGovObj
  if (nBlockHeight : ℤ) ≠ superblock.nBlockStart then none
  else pure (superblock, pObj)

def isSuperblockTriggered (node : GovernanceState) (nBlockHeight : ℕ) : Bool :=
  isValidBlockHeight params nBlockHeight &&
    (node.vecTriggers.filterMap (triggerAt nBlockHeight)).any
      fun trigger => trigger.2.fCachedFunding

/-- The loop of `GetBestSuperblock`: a trigger wins with strictly more votes
than the best so far. -/
def getBestSuperblockLoop : List (CSuperblock × CGovernanceObject) → Option CSuperblock → ℤ →
      Option CSuperblock
  | [], best, nYesCount => if nYesCount > 0 then best else none
  | (superblock, pObj) :: triggers, best, nYesCount =>
    if pObj.nAbsoluteYesCount > nYesCount then
      getBestSuperblockLoop triggers (some superblock) pObj.nAbsoluteYesCount
    else getBestSuperblockLoop triggers best nYesCount

def getBestSuperblock (node : GovernanceState) (nBlockHeight : ℕ) : Option CSuperblock :=
  if !isValidBlockHeight params nBlockHeight then none
  else
    getBestSuperblockLoop (node.vecTriggers.filterMap (triggerAt nBlockHeight)) none 0

def superblockManagerIsValid (node : GovernanceState) (txNew : CTransaction) (nBlockHeight : ℕ)
    (blockReward : CAmount) : Option Bool :=
  match getBestSuperblock params node nBlockHeight with
  | some superblock => superblock.isValid params txNew nBlockHeight blockReward
  | none => some false

def paysTooMuch (nBlockHeight : ℕ) (actual limit : CAmount) (exceeded : String) : String :=
  s!"coinbase pays too much at height {nBlockHeight} " ++
    s!"(actual={actual} vs limit={limit}), exceeded {exceeded}"

/-- Compare the coinbase value with a limit, with the message of the branch
when it is above. -/
def checkLimit (nBlockHeight : ℕ) (actual limit : CAmount)
    (exceeded : String) : Except String Unit :=
  if actual ≤ limit then .ok ()
  else .error (paysTooMuch nBlockHeight actual limit exceeded)

def inBudgetWindow (nBlockHeight : ℕ) : Bool :=
  nBlockHeight ≥ params.nBudgetPaymentsStartBlock &&
    nBlockHeight % params.nBudgetPaymentsCycleBlocks < params.nBudgetPaymentsWindowBlocks

/-- `IsBlockValueValid` for the block whose coinbase is `vtx0`: the verdict
with `strErrorRet`, or `none` when `GetValueOut` throws. -/
def isBlockValueValid (node : GovernanceState)
    (vtx0 : CTransaction) (nBlockHeight : ℕ) (blockReward : CAmount) :
    Option (Except String Unit) := do
  let actual ← vtx0.getValueOut
  if nBlockHeight < params.nSuperblockStartBlock then
    if inBudgetWindow params nBlockHeight then
      if node.isSynced && !node.oldSuperblockFlag then
        pure (checkLimit nBlockHeight actual blockReward "block reward, budgets are disabled")
      -- The budget data is gone, so the value is not checked.
      else pure (.ok ())
    else
      pure (checkLimit nBlockHeight actual blockReward
        "block reward, block is not in budget cycle window")
  else
    let nSuperblockMaxValue := blockReward + getPaymentsLimit params nBlockHeight
    if !node.isSynced then
      if isValidBlockHeight params nBlockHeight then
        pure (checkLimit nBlockHeight actual nSuperblockMaxValue "superblock max value")
      else
        pure (checkLimit nBlockHeight actual blockReward
          "block reward, only regular blocks are allowed at this height")
    else if node.superblocksEnabled then
      if isSuperblockTriggered params node nBlockHeight then
        let fValid ← superblockManagerIsValid params node vtx0 nBlockHeight
          blockReward
        if fValid then pure (.ok ())
        else
          pure (.error
            s!"invalid superblock detected at height {nBlockHeight}")
      else
        pure (checkLimit nBlockHeight actual blockReward
          "block reward, no triggered superblock detected")
    else
      pure (checkLimit nBlockHeight actual blockReward "block reward, superblocks are disabled")

variable {params}

theorem superblockPart_bounds (hinterval : 0 < params.nSubsidyHalvingInterval)
    (nPrevBits : UInt32) (nPrevHeight : ℕ) :
    0 ≤ (getBlockSubsidy params nPrevBits nPrevHeight true).toInt ∧
      (getBlockSubsidy params nPrevBits nPrevHeight true).toInt ≤
        100000000000 := by
  have hbounds := declinedSubsidy_bounds hinterval nPrevBits nPrevHeight
  rw [superblockPart_toInt hinterval]
  split_ifs <;> omega

variable (net : Network)

theorem consensusParams_interval_pos : 0 < (consensusParams net).nSubsidyHalvingInterval := by
  cases net <;> decide

theorem consensusParams_superblockCycle_le : (consensusParams net).nSuperblockCycle ≤ 16616 := by
  cases net <;> decide

theorem getPaymentsLimit_nonneg (nBlockHeight : ℕ) :
    0 ≤ (getPaymentsLimit (consensusParams net) nBlockHeight).toInt := by
  unfold getPaymentsLimit
  split_ifs with hheight
  · exact le_rfl
  · have hcycle := consensusParams_superblockCycle_le net
    obtain ⟨hpos, hmax⟩ :=
      superblockPart_bounds (consensusParams_interval_pos net)
        (paymentsLimitBits (consensusParams net)) (nBlockHeight - 1)
    rw [Int64.toInt_mul, Int64.toInt_ofNat_of_lt (by omega)]
    have hproduct := mul_nonneg hpos (Int.natCast_nonneg (consensusParams net).nSuperblockCycle)
    have hbound := mul_le_mul hmax (Int.ofNat_le.mpr hcycle) (Int.natCast_nonneg _) (by omega)
    rw [Int.bmod_eq_of_le (by omega) (by omega)]
    exact hproduct

/-- The heights and node states in which the value of the coinbase is not
looked at: an old budget block, unless the node is synced and knows that
budgets are off. -/
def skipsBudgetCheck (params : ConsensusParams) (node : GovernanceState)
    (nBlockHeight : ℕ) : Bool :=
  nBlockHeight < params.nSuperblockStartBlock && inBudgetWindow params nBlockHeight &&
      !(node.isSynced && !node.oldSuperblockFlag)

variable {nBlockHeight : ℕ}

theorem checkLimit_ok {actual limit : CAmount} {exceeded : String}
    (hcheck : checkLimit nBlockHeight actual limit exceeded = .ok ()) :
    actual.toInt ≤ limit.toInt := by
  unfold checkLimit at hcheck
  split_ifs at hcheck with hle
  exact Int64.le_iff_toInt_le.mp hle

variable {blockReward nBlockValue : CAmount} {txNew : CTransaction}

theorem CSuperblock.isValid_bound {superblock : CSuperblock}
    (hvalue : txNew.getValueOut = some nBlockValue) (hreward : 0 ≤ blockReward.toInt)
    (hvalid : superblock.isValid params txNew nBlockHeight blockReward = some true) :
    nBlockValue.toInt ≤ blockReward.toInt + (getPaymentsLimit params nBlockHeight).toInt := by
  simp only [CSuperblock.isValid, hvalue, Option.bind_eq_bind, Option.bind_some] at hvalid
  have hwrap : (blockReward + superblock.getPaymentsTotalAmount).toInt ≤ _ :=
    toInt_add_le_of_nonneg hreward
  split_ifs at hvalid with hheight hfew hlimit hblock
  · cases hvalid
  · cases hvalid
  · cases hvalid
  · cases hvalid
  · simp only [Int64.lt_iff_toInt_lt] at hlimit hblock
    omega

variable {node : GovernanceState}

theorem superblockManagerIsValid_bound (hvalue : txNew.getValueOut = some nBlockValue)
    (hreward : 0 ≤ blockReward.toInt)
    (hvalid : superblockManagerIsValid params node txNew nBlockHeight blockReward = some true) :
    nBlockValue.toInt ≤ blockReward.toInt + (getPaymentsLimit params nBlockHeight).toInt := by
  unfold superblockManagerIsValid at hvalid
  split at hvalid
  next superblock hbest => exact superblock.isValid_bound hvalue hreward hvalid
  next hnone => cases hvalid

theorem isBlockValueValid_bound {net : Network} {vtx0 : CTransaction} {blockReward actual : CAmount}
    (hvalue : vtx0.getValueOut = some actual) (hreward : 0 ≤ blockReward.toInt)
    (hchecked : skipsBudgetCheck (consensusParams net) node nBlockHeight = false)
    (hvalid : isBlockValueValid (consensusParams net) node vtx0 nBlockHeight
    blockReward = some (.ok ())) :
    actual.toInt ≤ blockReward.toInt +
      (getPaymentsLimit (consensusParams net) nBlockHeight).toInt := by
  have hlimit := getPaymentsLimit_nonneg net nBlockHeight
  have hregular : ∀ exceeded : String,
      some (checkLimit nBlockHeight actual blockReward exceeded) = some (.ok ()) →
      actual.toInt ≤ blockReward.toInt +
        (getPaymentsLimit (consensusParams net) nBlockHeight).toInt := by
    intro exceeded hcheck
    have hle := checkLimit_ok (Option.some.inj hcheck)
    omega
  simp only [isBlockValueValid, hvalue] at hvalid
  split_ifs at hvalid with hstart hwindow hbudget hsync hheight hspork htrigger
  · exact hregular _ hvalid
  · simp [skipsBudgetCheck, hstart, hwindow, hbudget] at hchecked
  · exact hregular _ hvalid
  · have hle := checkLimit_ok (Option.some.inj hvalid)
    exact hle.trans (toInt_add_le_of_nonneg hreward)
  · exact hregular _ hvalid
  · cases hsuper : superblockManagerIsValid (consensusParams net) node vtx0
        nBlockHeight blockReward with
    | none => simp [hsuper] at hvalid
    | some fValid =>
      cases fValid with
      | false => simp [hsuper] at hvalid
      | true => exact superblockManagerIsValid_bound hvalue hreward hsuper
  · exact hregular _ hvalid
  · exact hregular _ hvalid

/-- Whatever the node's sync status, sporks and triggers are, a coinbase that
`IsBlockValueValid` accepts outside the unchecked budget blocks pays in total
at most the block reward and the payments limit of its height. -/
theorem totalOut_le_of_isBlockValueValid (net : Network)
    (node : GovernanceState) (vtx0 : CTransaction) (nBlockHeight : ℕ)
    (blockReward : CAmount) (hreward : 0 ≤ blockReward.toInt)
    (hchecked : skipsBudgetCheck (consensusParams net) node nBlockHeight = false)
    (hvalid : isBlockValueValid (consensusParams net) node vtx0 nBlockHeight
      blockReward = some (.ok ())) :
    totalOut vtx0.vout ≤ blockReward.toInt +
      (getPaymentsLimit (consensusParams net) nBlockHeight).toInt := by
  cases hvalue : vtx0.getValueOut with
  | none => simp [isBlockValueValid, hvalue] at hvalid
  | some actual =>
    rw [← (getValueOut_eq_some hvalue).2]
    exact isBlockValueValid_bound hvalue hreward hchecked hvalid

def coinbasePaying (nValue : CAmount) : CTransaction where
  nVersion := 1
  vin := [⟨⟨0, 0xffffffff⟩, [0x51, 0x51], 0xffffffff⟩]
  vout := [{ nValue := nValue, scriptPubKey := [OP_1], imgbase64 := [] }]
  nLockTime := 0
  hash := 1

def unsyncedNode : GovernanceState where
  isSynced := false
  superblocksEnabled := true
  oldSuperblockFlag := false
  vecTriggers := []

theorem totalOut_le_superblock_main :
    totalOut (coinbasePaying (coin + getPaymentsLimit mainParams 631408)).vout ≤
      coin.toInt + (getPaymentsLimit mainParams 631408).toInt :=
  totalOut_le_of_isBlockValueValid .main unsyncedNode _ 631408 coin
    (by decide) (by decide +kernel) (by decide +kernel)

/-- In an old budget block an unsynced node accepts a coinbase that pays all
of `MAX_MONEY`. -/
theorem unsyncedNode_accepts_maxMoney :
    ∃ (node : GovernanceState) (vtx0 : CTransaction) (nBlockHeight : ℕ) (blockReward : CAmount),
      isBlockValueValid mainParams node vtx0 nBlockHeight blockReward = some (.ok ()) ∧
        0 ≤ blockReward.toInt ∧
        blockReward.toInt + (getPaymentsLimit mainParams nBlockHeight).toInt <
          totalOut vtx0.vout := by
  refine ⟨unsyncedNode, coinbasePaying maxMoney, 332320, coin, ?_, ?_, ?_⟩
  · decide +kernel
  · decide
  · decide +kernel

section
variable (nBits : ℕ → UInt32)

/-- What `GetBlockSubsidy` withholds from the block at a height, where `nBits h`
is the compact target of the block at height `h`. -/
def withheld (height : ℕ) : ℤ :=
  (getBlockSubsidy mainParams (nBits (height - 1)) (height - 1) true).toInt

def withheldInCycle (height : ℕ) : ℤ :=
  ∑ h ∈ Finset.Ico (height - mainParams.nSuperblockCycle) height, withheld nBits h

variable {nPrevHeight : ℕ} (nPrevBits : UInt32)

theorem five_le_subsidyBase (hheight : 1000 ≤ nPrevHeight) :
    5 ≤ subsidyBase mainParams nPrevBits nPrevHeight := by
  have hearly : ¬nPrevHeight < 500 := by omega
  have hcpu : ¬nPrevHeight < 1000 := by omega
  simp only [subsidyBase, if_neg hearly, hcpu, and_false, if_false, clampBase]
  split_ifs <;> omega

theorem subsidyBase_hardestBits (hheight : 1000 < nPrevHeight) :
    subsidyBase mainParams 1 nPrevHeight = 5 := by
  have hearly : ¬nPrevHeight < 500 := by omega
  have hcpu : ¬nPrevHeight < 1000 := by omega
  have hmain : ¬(nPrevHeight ≤ 1000 ∧ mainParams.networkID = .main) := by omega
  have hdiff : convertBitsToDouble 1 = some (65535 * 256 ^ 29) := by
    decide +kernel
  simp only [subsidyBase, difficultyAt, if_neg hearly, if_neg hmain, hcpu, and_false,
    if_false, hdiff]
  decide +kernel

theorem iterate_declineInt_antitone {s : ℤ} (hs : 0 ≤ s) {years later : ℕ}
    (hle : years ≤ later) : declineInt^[later] s ≤ declineInt^[years] s := by
  obtain ⟨more, rfl⟩ := Nat.exists_eq_add_of_le' hle
  rw [Function.iterate_add_apply]
  exact (iterate_declineInt_bounds more (iterate_declineInt_bounds years hs).1).2

theorem declinedSubsidy_hardestBits_le {nPrevHeight later : ℕ}
    (hheight : 1000 ≤ nPrevHeight) (hle : nPrevHeight < later) :
    (declinedSubsidy mainParams 1 later).toInt ≤
      (declinedSubsidy mainParams nPrevBits nPrevHeight).toInt := by
  have hinterval : 0 < mainParams.nSubsidyHalvingInterval := by decide
  have hbase := five_le_subsidyBase nPrevBits hheight
  have hyears : nPrevHeight / mainParams.nSubsidyHalvingInterval ≤
      later / mainParams.nSubsidyHalvingInterval := Nat.div_le_div_right hle.le
  rw [declinedSubsidy_toInt hinterval, declinedSubsidy_toInt hinterval,
    subsidyBase_hardestBits (by omega)]
  calc declineInt^[later / mainParams.nSubsidyHalvingInterval] (5 * 100000000)
      ≤ declineInt^[nPrevHeight / mainParams.nSubsidyHalvingInterval]
          (5 * 100000000) := iterate_declineInt_antitone (by decide) hyears
    _ ≤ declineInt^[nPrevHeight / mainParams.nSubsidyHalvingInterval]
          (subsidyBase mainParams nPrevBits nPrevHeight * 100000000) :=
        declineInt_mono.iterate _ (by omega)

theorem withheld_nonneg (height : ℕ) : 0 ≤ withheld nBits height :=
  (superblockPart_bounds (by decide) _ _).1

theorem limitPart_le_withheld {height h : ℕ} (hstart : mainParams.nSuperblockStartBlock ≤ height)
    (hh : h ∈ Finset.Ico (height - mainParams.nSuperblockCycle) height) :
    (getBlockSubsidy mainParams 1 (height - 1) true).toInt ≤ withheld nBits h := by
  have hinterval : 0 < mainParams.nSubsidyHalvingInterval := by decide
  obtain ⟨hlow, hhigh⟩ := Finset.mem_Ico.mp hh
  change 614820 ≤ height at hstart
  change height - 16616 ≤ h at hlow
  have hbudget : height - 1 > mainParams.nBudgetPaymentsStartBlock := by
    change 328008 < height - 1
    omega
  have hbudget' : h - 1 > mainParams.nBudgetPaymentsStartBlock := by
    change 328008 < h - 1
    omega
  have hle : (declinedSubsidy mainParams 1 (height - 1)).toInt ≤
      (declinedSubsidy mainParams (nBits (h - 1)) (h - 1)).toInt :=
    declinedSubsidy_hardestBits_le _ (by omega) (by omega)
  rw [withheld, superblockPart_toInt hinterval, superblockPart_toInt hinterval,
    if_pos hbudget, if_pos hbudget']
  omega

/-- A superblock pays out at most what was withheld from the blocks of the cycle
before it. -/
theorem getPaymentsLimit_le_withheldInCycle (nBits : ℕ → UInt32) (height : ℕ) :
    (getPaymentsLimit mainParams height).toInt ≤ withheldInCycle nBits height := by
  unfold getPaymentsLimit
  split_ifs with hheight
  · exact Finset.sum_nonneg fun h _ => withheld_nonneg nBits h
  · have hvalid : isValidBlockHeight mainParams height := by simpa using hheight
    simp only [isValidBlockHeight, ge_iff_le, Bool.and_eq_true, decide_eq_true_eq] at hvalid
    have hsum := Finset.card_nsmul_le_sum (Finset.Ico (height - mainParams.nSuperblockCycle) height)
      (withheld nBits) _ fun h hh => limitPart_le_withheld nBits hvalid.1 hh
    have hstart : 614820 ≤ height := hvalid.1
    have hcard : (Finset.Ico (height - mainParams.nSuperblockCycle) height).card = 16616 := by
      rw [Nat.card_Ico]
      change height - (height - 16616) = 16616
      omega
    have hinterval : 0 < mainParams.nSubsidyHalvingInterval := by decide
    obtain ⟨hpos, hmax⟩ := superblockPart_bounds hinterval 1 (height - 1)
    rw [hcard, nsmul_eq_mul] at hsum
    have hbits : paymentsLimitBits mainParams = 1 := rfl
    rw [hbits, Int64.toInt_mul, show (Int64.ofNat mainParams.nSuperblockCycle).toInt =
      16616 from rfl, Int.bmod_eq_of_le (by omega) (by omega), withheldInCycle]
    push_cast at hsum
    linarith

end
end ImageCoin
