import ImageCoin.PaymentVoteTally
import ImageCoin.SuperblockPayments

/-!
# The coinbase of a miner

`FillBlockPayments` turns the output of a miner into a coinbase that pays the superblock or the
masternode of its height; `IsBlockValueValid` and `IsBlockPayeeValid` check a coinbase.
-/

namespace ImageCoin

open CGovernancePayment List CMasternodePayments

/-- `nMasternodePaymentsIncreaseBlock` and `nMasternodePaymentsIncreasePeriod` -/
structure PaymentsIncrease where
  nMNPIBlock : ℤ
  nMNPIPeriod : ℤ

def paymentsIncrease : Network → PaymentsIncrease
  | .main => ⟨20000, 17280⟩
  | .test => ⟨4030, 10⟩
  | .regtest => ⟨350, 10⟩

/-- After how many periods the payment rises, and by which part of the value. -/
def paymentSteps : List (ℤ × CAmount) :=
  [(0, 20), (1, 20), (2, 20), (3, 40), (4, 40), (5, 40), (6, 40), (7, 40), (9, 40)]

def getMasternodePayment (net : Network) (nHeight : ℤ) (blockValue : CAmount) : CAmount :=
  paymentSteps.foldl (fun ret step =>
      if nHeight > (paymentsIncrease net).nMNPIBlock +
          (paymentsIncrease net).nMNPIPeriod * step.1 then ret + blockValue / step.2
      else ret)
    (blockValue / 5)

/-- The node's view: what the value rules read, `SPORK_8`, the payment votes and the
script of the masternode that is next in the queue. -/
structure PayeeState where
  governance : GovernanceState
  paymentEnforcement : Bool
  payments : CMasternodePayments
  getNextMasternodeInQueueForPayment : ℕ → Option CScript

/-- The coinbase with what `getblocktemplate` is told of it. -/
structure FilledPayments where
  txNew : CTransaction
  txoutMasternodeRet : CTxOut
  voutSuperblockRet : List CTxOut

def CMasternodePayments.getBlockPayee (s : CMasternodePayments) (nBlockHeight : ℕ) :
    Option CScript :=
  (s.mapMasternodeBlocks.lookup (nBlockHeight : ℤ)).bind CMasternodeBlockPayees.getBestPayee

section
variable (net : Network) (node : PayeeState)

def fillBlockPayee (txNew : CTransaction) (nBlockHeight : ℕ) (blockReward : CAmount) :
    CTransaction × CTxOut :=
  let payee := (node.payments.getBlockPayee nBlockHeight).or
    (node.getNextMasternodeInQueueForPayment nBlockHeight)
  match payee with
  | none => (txNew, .null)
  | some payee =>
    let masternodePayment := getMasternodePayment net nBlockHeight blockReward
    let txoutMasternode : CTxOut := ⟨masternodePayment, payee, [], -10⟩
    ({ txNew with
        vout := txNew.vout.modifyHead
          (fun txout => { txout with nValue := txout.nValue - masternodePayment }) ++
            [txoutMasternode] },
      txoutMasternode)

def createSuperblock (txNew : CTransaction) (nBlockHeight : ℕ)
    (voutSuperblockRet : List CTxOut) : CTransaction × List CTxOut :=
  match getBestSuperblock (consensusParams net) node.governance nBlockHeight with
  | none => (txNew, voutSuperblockRet)
  | some superblock =>
    let payments := superblock.vecPayments.map toOut
    ({ txNew with vout := txNew.vout ++ payments }, payments)

def fillBlockPayments (txNew : CTransaction) (nBlockHeight : ℕ) (blockReward : CAmount)
    (txoutMasternodeRet : CTxOut) (voutSuperblockRet : List CTxOut) : FilledPayments :=
  if node.governance.superblocksEnabled &&
      isSuperblockTriggered (consensusParams net) node.governance nBlockHeight then
    let created := createSuperblock net node txNew nBlockHeight voutSuperblockRet
    ⟨created.1, txoutMasternodeRet, created.2⟩
  else
    let filled := fillBlockPayee net node txNew nBlockHeight blockReward
    ⟨filled.1, filled.2, voutSuperblockRet⟩

def maxSignatures (payees : List CMasternodePayee) : ℕ :=
  payees.foldl (fun nMaxSignatures payee =>
    if payee.getVoteCount ≥ nMaxSignatures then payee.getVoteCount else nMaxSignatures) 0

/-- `CMasternodeBlockPayees::IsTransactionValid`, with no result if `GetValueOut`
throws. -/
def CMasternodeBlockPayees.isTransactionValid (block : CMasternodeBlockPayees)
    (txNew : CTransaction) : Option Bool := do
  let nValueOut ← txNew.getValueOut
  let nMasternodePayment := getMasternodePayment net block.nBlockHeight nValueOut
  if maxSignatures block.vecPayees < mnpaymentsSignaturesRequired then pure true
  else
    pure (block.vecPayees.any fun payee =>
      payee.getVoteCount ≥ mnpaymentsSignaturesRequired && txNew.vout.any fun txout =>
          payee.scriptPubKey = txout.scriptPubKey && nMasternodePayment = txout.nValue)

def CMasternodePayments.isTransactionValid (s : CMasternodePayments) (txNew : CTransaction)
    (nBlockHeight : ℕ) : Option Bool :=
  match s.mapMasternodeBlocks.lookup (nBlockHeight : ℤ) with
  | some block => block.isTransactionValid net txNew
  | none => some true

def isBlockPayeeValid (txNew : CTransaction) (nBlockHeight : ℕ) (blockReward : CAmount) :
    Option Bool :=
  let params := consensusParams net
  if !node.governance.isSynced then some true
  else if nBlockHeight < params.nSuperblockStartBlock then do
    if ← node.payments.isTransactionValid net txNew nBlockHeight then pure true
    else if inBudgetWindow params nBlockHeight then pure node.governance.oldSuperblockFlag
    else pure !node.paymentEnforcement
  else if node.governance.superblocksEnabled &&
      isSuperblockTriggered params node.governance nBlockHeight then
    superblockManagerIsValid params node.governance txNew nBlockHeight blockReward
  else do
    if ← node.payments.isTransactionValid net txNew nBlockHeight then pure true
    else pure !node.paymentEnforcement

end

variable {net : Network} {node : PayeeState} {nBlockHeight : ℕ} {blockReward : CAmount}

theorem toInt_div_of_nonneg {a b : CAmount} (ha : 0 ≤ a.toInt) (hb : 0 < b.toInt) :
    (a / b).toInt = a.toInt / b.toInt := by
  have hlt := a.toInt_lt
  have hnonneg := Int.ediv_nonneg ha hb.le
  have hle := Int.ediv_le_self b.toInt ha
  rw [Int64.toInt_div, Int.tdiv_eq_ediv_of_nonneg ha]
  exact Int.bmod_eq_of_le (by omega) (by omega)

variable {blockValue : CAmount}

theorem foldl_steps_bounds (hvalue : 0 ≤ blockValue.toInt)
    (reached : ℤ → Bool) (steps : List (ℤ × CAmount)) (ret : CAmount)
    (hparts : ∀ step ∈ steps, 0 < step.2.toInt) (hret : 0 ≤ ret.toInt)
    (hfits : ret.toInt + (steps.map fun step => blockValue.toInt / step.2.toInt).sum < 2 ^ 63) :
    let payment := steps.foldl (fun ret step =>
      if reached step.1 then ret + blockValue / step.2 else ret) ret
    0 ≤ payment.toInt ∧ payment.toInt ≤
      ret.toInt + (steps.map fun step => blockValue.toInt / step.2.toInt).sum := by
  induction steps generalizing ret with
  | nil => simpa using hret
  | cons step steps ih =>
    obtain ⟨hpart, hparts⟩ := forall_mem_cons.mp hparts
    have hdiv := toInt_div_of_nonneg hvalue hpart
    have hnonneg := Int.ediv_nonneg hvalue hpart.le
    have hrest : 0 ≤ (steps.map fun step => blockValue.toInt / step.2.toInt).sum := by
      refine sum_nonneg fun x hx => ?_
      obtain ⟨other, hother, rfl⟩ := mem_map.mp hx
      exact Int.ediv_nonneg hvalue (hparts other hother).le
    rw [map_cons, sum_cons] at hfits ⊢
    rw [foldl_cons]
    split_ifs with hreached
    · have hadd : (ret + blockValue / step.2).toInt =
          ret.toInt + blockValue.toInt / step.2.toInt := by
        rw [← hdiv]
        exact toInt_add_of_fits (by omega) (by omega)
      have hbound := ih (ret + blockValue / step.2) hparts (by omega) (by omega)
      omega
    · have hbound := ih ret hparts hret (by omega)
      omega

theorem getMasternodePayment_bounds (net : Network) (nHeight : ℤ) (hvalue : 0 ≤ blockValue.toInt) :
    0 ≤ (getMasternodePayment net nHeight blockValue).toInt ∧
      (getMasternodePayment net nHeight blockValue).toInt ≤ blockValue.toInt := by
  have hfifth : (blockValue / 5).toInt = blockValue.toInt / 5 :=
    toInt_div_of_nonneg hvalue (by decide)
  have hsum : (paymentSteps.map fun step => blockValue.toInt / step.2.toInt).sum =
      3 * (blockValue.toInt / 20) + 6 * (blockValue.toInt / 40) := by
    have h20 : (20 : CAmount).toInt = 20 := rfl
    have h40 : (40 : CAmount).toInt = 40 := rfl
    simp only [paymentSteps, map_cons, map_nil, sum_cons, sum_nil, h20, h40]
    ring
  have hlt := blockValue.toInt_lt
  have hbounds := foldl_steps_bounds hvalue
    (fun periods => decide (nHeight > (paymentsIncrease net).nMNPIBlock +
      (paymentsIncrease net).nMNPIPeriod * periods))
    paymentSteps (blockValue / 5) (by decide) (by omega) (by omega)
  simp only [decide_eq_true_eq] at hbounds
  rw [getMasternodePayment]
  omega

/-- The loop takes the first of those with the most votes. -/
theorem getBestPayeeLoop_cases (payees : List CMasternodePayee) (nVotes : ℤ)
    (payeeRet : Option CScript) :
    (∃ front best back, payees = front ++ best :: back ∧
        (∀ other ∈ front, other.getVoteCount < best.getVoteCount) ∧
        (∀ other ∈ back, other.getVoteCount ≤ best.getVoteCount) ∧ nVotes < best.getVoteCount ∧
        getBestPayeeLoop payees nVotes payeeRet = some best.scriptPubKey) ∨
      (∀ payee ∈ payees, (payee.getVoteCount : ℤ) ≤ nVotes) ∧
        getBestPayeeLoop payees nVotes payeeRet =
          if nVotes > -1 then payeeRet else none := by
  induction payees generalizing nVotes payeeRet with
  | nil => exact .inr ⟨by simp, rfl⟩
  | cons payee payees ih =>
    by_cases hmore : (payee.getVoteCount : ℤ) > nVotes
    · left
      rw [getBestPayeeLoop, if_pos hmore]
      rcases ih payee.getVoteCount payee.scriptPubKey with
        ⟨front, best, back, rfl, hfront, hback, hvotes, heq⟩ | ⟨hfewer, heq⟩
      · exact ⟨payee :: front, best, back, rfl, forall_mem_cons.mpr ⟨by omega, hfront⟩, hback,
          by omega, heq⟩
      · refine ⟨[], payee, payees, rfl, by simp, fun other hother => ?_, hmore, ?_⟩
        · exact Int.ofNat_le.mp (hfewer other hother)
        · rw [heq, if_pos (by omega)]
    · rw [getBestPayeeLoop, if_neg hmore]
      rcases ih nVotes payeeRet with
        ⟨front, best, back, rfl, hfront, hback, hvotes, heq⟩ | ⟨hfewer, heq⟩
      · exact .inl ⟨payee :: front, best, back, rfl, forall_mem_cons.mpr ⟨by omega, hfront⟩, hback,
          hvotes, heq⟩
      · right
        rw [forall_mem_cons]
        exact ⟨⟨by omega, hfewer⟩, heq⟩

theorem exists_best_of_mem {block : CMasternodeBlockPayees} {payee : CMasternodePayee}
    (hmem : payee ∈ block.vecPayees) : ∃ front best back, block.vecPayees = front ++ best :: back ∧
      (∀ other ∈ front, other.getVoteCount < best.getVoteCount) ∧
      (∀ other ∈ back, other.getVoteCount ≤ best.getVoteCount) ∧
      block.getBestPayee = some best.scriptPubKey := by
  have hne : block.vecPayees.isEmpty = false :=
    isEmpty_eq_false_iff.mpr (ne_nil_of_mem hmem)
  rw [CMasternodeBlockPayees.getBestPayee, hne]
  rcases getBestPayeeLoop_cases block.vecPayees (-1) none with
    ⟨front, best, back, hpayees, hfront, hback, -, heq⟩ | ⟨hfewer, -⟩
  · exact ⟨front, best, back, hpayees, hfront, hback, heq⟩
  · have hnegative := hfewer payee hmem
    omega

theorem getBestPayee_of_mem {block : CMasternodeBlockPayees} {payee : CMasternodePayee}
    (hmem : payee ∈ block.vecPayees) :
    ∃ best ∈ block.vecPayees, payee.getVoteCount ≤ best.getVoteCount ∧
      block.getBestPayee = some best.scriptPubKey := by
  obtain ⟨front, best, back, hpayees, hfront, hback, hbest⟩ := exists_best_of_mem hmem
  refine ⟨best, by simp [hpayees], ?_, hbest⟩
  rw [hpayees, mem_append, mem_cons] at hmem
  rcases hmem with hmem | rfl | hmem
  · exact (hfront payee hmem).le
  · exact le_rfl
  · exact hback payee hmem

theorem foldl_max_lt {payees : List CMasternodePayee} {start bound : ℕ} :
    payees.foldl (fun nMaxSignatures payee =>
        if payee.getVoteCount ≥ nMaxSignatures then payee.getVoteCount
        else nMaxSignatures) start < bound ↔
      start < bound ∧ ∀ payee ∈ payees, payee.getVoteCount < bound := by
  induction payees generalizing start with
  | nil => simp
  | cons payee payees ih =>
    rw [foldl_cons, ih, forall_mem_cons]
    split_ifs with hmore
    · constructor
      · rintro ⟨hlt, hrest⟩
        exact ⟨by omega, hlt, hrest⟩
      · rintro ⟨-, hlt, hrest⟩
        exact ⟨hlt, hrest⟩
    · constructor
      · rintro ⟨hlt, hrest⟩
        exact ⟨hlt, by omega, hrest⟩
      · rintro ⟨hlt, -, hrest⟩
        exact ⟨hlt, hrest⟩

/-- Every list of payees is stored under its own height. -/
def CMasternodePayments.Filed (s : CMasternodePayments) : Prop :=
  ∀ h, ∀ block ∈ s.mapMasternodeBlocks.lookup h, block.nBlockHeight = h

variable {txNew : CTransaction} {txout : CTxOut}

theorem fillBlockPayee_vout (hvout : txNew.vout = [txout]) :
    (fillBlockPayee net node txNew nBlockHeight blockReward).1.vout = [txout] ∧
        node.payments.getBlockPayee nBlockHeight = none ∨
      ∃ payee, (∀ best, node.payments.getBlockPayee nBlockHeight = some best → payee = best) ∧
        (fillBlockPayee net node txNew nBlockHeight blockReward).1.vout =
          [{ txout with
              nValue := txout.nValue - getMasternodePayment net nBlockHeight blockReward },
            ⟨getMasternodePayment net nBlockHeight blockReward, payee, [], -10⟩] := by
  unfold fillBlockPayee
  cases hblock : node.payments.getBlockPayee nBlockHeight with
  | none =>
    cases node.getNextMasternodeInQueueForPayment nBlockHeight with
    | none => exact .inl ⟨hvout, rfl⟩
    | some payee => exact .inr ⟨payee, by simp, by simp [hvout]⟩
  | some payee => exact .inr ⟨payee, by simp, by simp [hvout]⟩

theorem getValueOut_fillBlockPayee (hvout : txNew.vout = [txout]) :
    (fillBlockPayee net node txNew nBlockHeight txout.nValue).1.getValueOut =
      if moneyRange txout.nValue then some txout.nValue else none := by
  unfold CMutableTransaction.getValueOut
  rcases fillBlockPayee_vout hvout with ⟨hfilled, -⟩ | ⟨payee, -, hfilled⟩
  · rw [hfilled]
    by_cases hrange : moneyRange txout.nValue
    · simp [addInRange]
    · simp [addInRange]
  · rw [hfilled]
    by_cases hrange : moneyRange txout.nValue
    · have hbounds := moneyRange_iff.mp hrange
      have hpayment := getMasternodePayment_bounds net nBlockHeight hbounds.1
      have hrest : moneyRange
          (txout.nValue - getMasternodePayment net nBlockHeight txout.nValue) := by
        rw [moneyRange_iff, toInt_sub_of_fits (by omega) (by omega)]
        omega
      have hpaid : moneyRange (getMasternodePayment net nBlockHeight txout.nValue) := by
        rw [moneyRange_iff]
        omega
      simp [addInRange, hrest, hpaid]
    · simp [addInRange, hrange]

theorem isTransactionValid_fillBlockPayee (hfiled : node.payments.Filed)
    (hvout : txNew.vout = [txout]) (hrange : moneyRange txout.nValue) :
    node.payments.isTransactionValid net
      (fillBlockPayee net node txNew nBlockHeight txout.nValue).1 nBlockHeight = some true := by
  unfold isTransactionValid
  cases hblock : node.payments.mapMasternodeBlocks.lookup (nBlockHeight : ℤ) with
  | none => rfl
  | some block =>
    have hheight := hfiled _ block hblock
    simp only [CMasternodeBlockPayees.isTransactionValid, getValueOut_fillBlockPayee hvout,
      hrange, if_true, hheight, Option.bind_eq_bind, Option.bind_some]
    split_ifs with hfew
    · rfl
    · rw [maxSignatures, foldl_max_lt] at hfew
      push Not at hfew
      obtain ⟨payee, hpayee, hvotes⟩ := hfew (by decide)
      obtain ⟨best, hbest, hmore, hpaid⟩ := getBestPayee_of_mem hpayee
      have hdemanded : node.payments.getBlockPayee nBlockHeight = some best.scriptPubKey := by
        rw [getBlockPayee, hblock, Option.bind_some, hpaid]
      rcases fillBlockPayee_vout hvout with ⟨-, hnone⟩ | ⟨script, hscript, hfilled⟩
      · rw [hdemanded] at hnone
        cases hnone
      · rw [hfilled, Option.pure_def, Option.some_inj, any_eq_true]
        refine ⟨best, hbest, ?_⟩
        simp [hscript _ hdemanded, hvotes.trans hmore]

variable (superblock : CSuperblock)

/-- The payments are within the budget, and with the block reward within the money range. -/
def CSuperblock.Payable (params : ConsensusParams)
    (nBlockHeight : ℕ) (blockReward : CAmount) : Prop :=
  (∀ payment ∈ superblock.vecPayments, moneyRange payment.nAmount) ∧
    paymentsSum superblock.vecPayments ≤ (getPaymentsLimit params nBlockHeight).toInt ∧
    blockReward.toInt + paymentsSum superblock.vecPayments ≤ maxMoney.toInt

theorem covers_toOut (front : List CTxOut) (payments : List CGovernancePayment) :
    ResumableScan.Covers paidBy (front ++ payments.map toOut) payments front.length := by
  induction payments generalizing front with
  | nil => trivial
  | cons payment payments ih =>
    refine ⟨front.length, le_rfl, ⟨payment.toOut, by simp, paidBy_toOut payment⟩, ?_⟩
    have hnext := (ih (front ++ [payment.toOut])).of_le (k := front.length) (by simp)
    simpa using hnext

theorem paymentsSum_nonneg {payments : List CGovernancePayment}
    (hamounts : ∀ payment ∈ payments, moneyRange payment.nAmount) :
    0 ≤ paymentsSum payments := by
  refine sum_nonneg fun x hx => ?_
  obtain ⟨payment, hmem, rfl⟩ := mem_map.mp hx
  exact (moneyRange_iff.mp (hamounts payment hmem)).1

theorem totalOut_created (txout : CTxOut) (payments : List CGovernancePayment) :
    totalOut (txout :: payments.map toOut) = txout.nValue.toInt + paymentsSum payments := by
  simp [totalOut, paymentsSum, toOut, Function.comp_def]

theorem isValid_created_iff {superblock : CSuperblock} {params : ConsensusParams}
    (hvout : txNew.vout = txout :: superblock.vecPayments.map toOut)
    (hheight : isValidBlockHeight params nBlockHeight) :
    superblock.isValid params txNew nBlockHeight txout.nValue = some true ↔
      moneyRange txout.nValue ∧ superblock.Payable params nBlockHeight txout.nValue := by
  have hmoney := maxMoney_toInt
  rw [isValid_eq_true]
  constructor
  · rintro ⟨-, -, hlimit, nBlockValue, hvalue, -, -⟩
    have hvalues := moneyRange_of_foldlM hvalue
    obtain ⟨hrange, hexact⟩ := getValueOut_eq_some hvalue
    rw [hvout, forall_mem_cons] at hvalues
    rw [hvout, totalOut_created] at hexact
    have hamounts : ∀ payment ∈ superblock.vecPayments, moneyRange payment.nAmount :=
      fun payment hmem => hvalues.2 _ (mem_map_of_mem hmem)
    have hreward := moneyRange_iff.mp hvalues.1
    rw [moneyRange_iff] at hrange
    have htotal := getPaymentsTotalAmount_toInt
      (fun payment hmem => (moneyRange_iff.mp (hamounts payment hmem)).1) (by omega)
    rw [gt_iff_lt, Int64.lt_iff_toInt_lt, htotal, not_lt] at hlimit
    exact ⟨hvalues.1, hamounts, hlimit, by omega⟩
  · rintro ⟨hrange, hamounts, hlimit, hmax⟩
    have hsum := paymentsSum_nonneg hamounts
    have hreward := moneyRange_iff.mp hrange
    have htotal := getPaymentsTotalAmount_toInt
      (fun payment hmem => (moneyRange_iff.mp (hamounts payment hmem)).1) (by omega)
    have hout : ∃ nBlockValue, txNew.getValueOut = some nBlockValue := by
      refine getValueOut_of_total ?_ ?_
      · rw [hvout, forall_mem_cons]
        refine ⟨hrange, fun txout hmem => ?_⟩
        obtain ⟨payment, hpayment, rfl⟩ := mem_map.mp hmem
        exact hamounts payment hpayment
      · rw [hvout, totalOut_created]
        exact hmax
    obtain ⟨nBlockValue, hvalue⟩ := hout
    have hexact := (getValueOut_eq_some hvalue).2
    rw [hvout, totalOut_created] at hexact
    have hadd := toInt_add_of_fits (a := txout.nValue)
      (b := superblock.getPaymentsTotalAmount) (by omega) (by omega)
    refine ⟨hheight, by simp [hvout], ?_, nBlockValue, hvalue, ?_, ?_⟩
    · rw [gt_iff_lt, Int64.lt_iff_toInt_lt, htotal]
      omega
    · rw [gt_iff_lt, Int64.lt_iff_toInt_lt, hadd, htotal]
      omega
    · rw [hvout]
      exact (covers_toOut [txout] superblock.vecPayments).of_le (by simp)

/-! ## Miner and validator -/

theorem checkLimit_self (nBlockHeight : ℕ) (limit : CAmount) (exceeded : String) :
    checkLimit nBlockHeight limit limit exceeded = .ok () :=
  if_pos (Int64.le_refl limit)

section
variable (hsynced : node.governance.isSynced)
include hsynced

section
variable
  (hregular : (node.governance.superblocksEnabled && isSuperblockTriggered (consensusParams net)
    node.governance nBlockHeight) = false)
include hregular

theorem isBlockValueValid_regular (hvalue : txNew.getValueOut = some blockReward) :
    isBlockValueValid (consensusParams net) node.governance txNew nBlockHeight
      blockReward = some (.ok ()) := by
  simp only [isBlockValueValid, hvalue, checkLimit_self, Option.bind_eq_bind,
    Option.bind_some, hsynced, Bool.not_true, Bool.false_eq_true, if_false]
  split_ifs with _ _ _ hspork htriggered
  · rfl
  · rfl
  · rfl
  · simp [hspork, htriggered] at hregular
  · rfl
  · rfl

omit hsynced in
theorem isBlockPayeeValid_regular
    (hpayee : node.payments.isTransactionValid net txNew nBlockHeight = some true) :
    isBlockPayeeValid net node txNew nBlockHeight blockReward = some true := by
  simp [isBlockPayeeValid, hregular, hpayee]

end

theorem valid_triggered_iff (hspork : node.governance.superblocksEnabled)
    (htriggered : isSuperblockTriggered (consensusParams net) node.governance nBlockHeight) :
    (isBlockValueValid (consensusParams net) node.governance txNew nBlockHeight
          blockReward = some (.ok ()) ∧
        isBlockPayeeValid net node txNew nBlockHeight blockReward = some true) ↔
      superblockManagerIsValid (consensusParams net) node.governance txNew nBlockHeight
        blockReward = some true := by
  have hheight : isValidBlockHeight (consensusParams net) nBlockHeight := by
    rw [isSuperblockTriggered, Bool.and_eq_true] at htriggered
    exact htriggered.1
  have hstart : ¬nBlockHeight < (consensusParams net).nSuperblockStartBlock := by
    rw [isValidBlockHeight, Bool.and_eq_true, decide_eq_true_eq] at hheight
    exact not_lt.mpr hheight.1
  have hpayee : isBlockPayeeValid net node txNew nBlockHeight blockReward =
      superblockManagerIsValid (consensusParams net) node.governance txNew nBlockHeight
        blockReward := by
    simp [isBlockPayeeValid, hsynced, hstart, hspork, htriggered]
  rw [hpayee]
  refine ⟨And.right, fun hvalid => ⟨?_, hvalid⟩⟩
  cases hvalue : txNew.getValueOut with
  | none =>
    -- A superblock is not found valid if `GetValueOut` throws.
    unfold superblockManagerIsValid at hvalid
    split at hvalid
    next superblock hbest =>
      obtain ⟨-, -, -, nBlockValue, hsome, -⟩ := isValid_eq_true.mp hvalid
      rw [hvalue] at hsome
      cases hsome
    next => cases hvalid
  | some actual =>
    simp [isBlockValueValid, hvalue, hstart, hsynced, hspork, htriggered, hvalid]

end

/-- The coinbase that `FillBlockPayments` makes from an output of the reward passes
both checks of a synced node in the same state, unless a superblock is due whose best
trigger cannot be paid. -/
theorem fillBlockPayments_valid_iff (net : Network) (node : PayeeState)
    (txNew : CTransaction) (txout : CTxOut) (nBlockHeight : ℕ) (txoutMasternodeRet : CTxOut)
    (voutSuperblockRet : List CTxOut) (hsynced : node.governance.isSynced)
    (hfiled : node.payments.Filed) (hvout : txNew.vout = [txout]) :
    let filled := (fillBlockPayments net node txNew nBlockHeight txout.nValue
      txoutMasternodeRet voutSuperblockRet).txNew
    (isBlockValueValid (consensusParams net) node.governance filled nBlockHeight
          txout.nValue = some (.ok ()) ∧
        isBlockPayeeValid net node filled nBlockHeight txout.nValue = some true) ↔
      moneyRange txout.nValue ∧ (node.governance.superblocksEnabled →
          isSuperblockTriggered (consensusParams net) node.governance nBlockHeight →
          ∃ superblock, getBestSuperblock (consensusParams net) node.governance
              nBlockHeight = some superblock ∧
            superblock.Payable (consensusParams net) nBlockHeight txout.nValue) := by
  intro filled
  cases hdue : node.governance.superblocksEnabled && isSuperblockTriggered
      (consensusParams net) node.governance nBlockHeight with
  | false =>
    have hfilled : filled = (fillBlockPayee net node txNew nBlockHeight txout.nValue).1 := by
      simp [filled, fillBlockPayments, hdue]
    have hvalue : filled.getValueOut =
        if moneyRange txout.nValue then some txout.nValue else none := by
      rw [hfilled]
      exact getValueOut_fillBlockPayee hvout
    constructor
    · rintro ⟨hvalid, -⟩
      refine ⟨?_, ?_⟩
      · by_contra hrange
        rw [if_neg hrange] at hvalue
        simp [isBlockValueValid, hvalue] at hvalid
      · intro hspork htriggered
        simp [hspork, htriggered] at hdue
    · rintro ⟨hrange, -⟩
      rw [if_pos hrange] at hvalue
      refine ⟨isBlockValueValid_regular hsynced hdue hvalue,
        isBlockPayeeValid_regular hdue ?_⟩
      rw [hfilled]
      exact isTransactionValid_fillBlockPayee hfiled hvout hrange
  | true =>
    obtain ⟨hspork, htriggered⟩ := Bool.and_eq_true_iff.mp hdue
    rw [valid_triggered_iff hsynced hspork htriggered]
    have hheight : isValidBlockHeight (consensusParams net) nBlockHeight := by
      rw [isSuperblockTriggered, Bool.and_eq_true] at htriggered
      exact htriggered.1
    have hfilled : filled = (createSuperblock net node txNew nBlockHeight voutSuperblockRet).1 := by
      simp [filled, fillBlockPayments, hdue]
    unfold superblockManagerIsValid
    cases hbest : getBestSuperblock (consensusParams net) node.governance nBlockHeight with
    | none => simp [hspork, htriggered]
    | some superblock =>
      have hcreated : filled.vout =
          txout :: superblock.vecPayments.map CGovernancePayment.toOut := by
        rw [hfilled, createSuperblock, hbest]
        simp [hvout]
      rw [isValid_created_iff hcreated hheight]
      simp [hspork, htriggered]

def triggeredNode : PayeeState where
  governance := ⟨true, true, false, [some superblock]⟩
  paymentEnforcement := true
  payments := {}
  getNextMasternodeInQueueForPayment := fun _ => none

theorem fillBlockPayments_valid_twiceScheduled :
    isBlockValueValid mainParams (triggeredNode twiceScheduled).governance
        (fillBlockPayments .main (triggeredNode twiceScheduled) (coinbasePaying coin) 631408
          coin .null []).txNew 631408 coin = some (.ok ()) ∧
      isBlockPayeeValid .main (triggeredNode twiceScheduled)
        (fillBlockPayments .main (triggeredNode twiceScheduled) (coinbasePaying coin) 631408
          coin .null []).txNew 631408 coin = some true := by
  refine (fillBlockPayments_valid_iff .main (triggeredNode twiceScheduled)
    (coinbasePaying coin) ⟨coin, [OP_1], [], -10⟩ 631408 .null [] rfl
    (fun _ _ hblock => nomatch hblock) rfl).mpr ⟨by decide, fun _ _ => ?_⟩
  refine ⟨twiceScheduled, by decide +kernel, by decide, by decide +kernel, by decide⟩

def overLimit : CSuperblock where
  nBlockStart := 631408
  pGovObj := some ⟨true, 1⟩
  vecPayments := [⟨[OP_1], getPaymentsLimit mainParams 631408 + 1⟩]

/-- The miner creates the superblock, and a node in the same state rejects it. -/
theorem fillBlockPayments_overLimit_rejected :
    (∀ payment ∈ overLimit.vecPayments, moneyRange payment.nAmount) ∧
      isBlockValueValid mainParams (triggeredNode overLimit).governance
        (fillBlockPayments .main (triggeredNode overLimit) (coinbasePaying coin) 631408
          coin .null []).txNew 631408 coin =
            some (.error "invalid superblock detected at height 631408") ∧
      isBlockPayeeValid .main (triggeredNode overLimit)
        (fillBlockPayments .main (triggeredNode overLimit) (coinbasePaying coin) 631408
          coin .null []).txNew 631408 coin = some false :=
  ⟨by decide +kernel, by decide +kernel, by decide +kernel⟩

end ImageCoin
