import ImageCoin.Chainstate
import ImageCoin.Superblock

/-!
# `CheckBlock` and `ConnectBlock`

The checks of a block and the loop of `ConnectBlock` over its transactions, in the order of the
source.
-/

namespace ImageCoin

open CCoinsViewCache

/-- What ends `ConnectBlock` without success. -/
inductive ConnectError where
  /-- A verdict in the validation state. -/
  | rejected (state : DoS)
  /-- `return false` with the validation state as it was. -/
  | failed
  | exception (e : CoinsError)
  | runtimeError (what : String)
  deriving DecidableEq

/-- What the two functions read besides the block and the view. -/
structure ConnectEnv where
  params : ConsensusParams
  hashGenesisBlock : UInt256
  node : GovernanceState
  adjustedTime : ℤ
  /-- `BlockMerkleRoot`, with its flag `mutated`. -/
  blockMerkleRoot : List CTransaction → UInt256 × Bool
  /-- `SPORK_3_INSTANTSEND_BLOCK_FILTERING` -/
  filtersLockedOutPoints : Bool
  getLockedOutPointTxHash : COutPoint → Option UInt256
  /-- The heights in `mapBlockIndex`. -/
  blockHeight : UInt256 → ℕ
  /-- The ancestor of the parent at `BIP34Height`. -/
  hashBIP34Ancestor : Option UInt256
  nPrevBits : UInt32
  fDIP0001Active : Bool
  sequenceLocks : CTransaction → List ℕ → Bool
  verifyScripts : CTransaction → List Coin → Except DoS Unit
  isBlockPayeeValid : CTransaction → ℕ → CAmount → Bool

abbrev ConnectM (β : Type) := EStateM ConnectError (CCoinsViewCache β)

variable {α β : Type}

def viewCall (x : CacheM β α) : ConnectM β α := fun view =>
  match x view with
  | .ok a view => .ok a view
  | .error e view => .error (.exception e) view

def liftCheck (check : Except DoS α) : ConnectM β α :=
  match check with
  | .ok a => pure a
  | .error state => throw (.rejected state)

def invalid (level : ℕ) (strRejectReason : String) : DoS :=
  ⟨level, rejectInvalid, strRejectReason⟩

variable (fDIP0001Active : Bool)

def maxBlockSize : ℕ :=
  if fDIP0001Active then 55000000 else maxLegacyBlockSize

def maxBlockSigOps : ℕ :=
  maxBlockSize fDIP0001Active / 50

def checkProofOfWork (params : ConsensusParams) (hash : UInt256) (nBits : UInt32) : Bool :=
  let bnTarget := setCompact nBits
  !(bnTarget.fNegative || bnTarget.target = 0 || bnTarget.fOverflow ||
      bnTarget.target > params.powLimit) && !(hash > bnTarget.target)

def getBlockProof (nBits : UInt32) : UInt256 :=
  let bnTarget := setCompact nBits
  if bnTarget.fNegative || bnTarget.fOverflow || bnTarget.target = 0 then 0
  else ~~~bnTarget.target / (bnTarget.target + 1) + 1

theorem card_le_target (target : UInt256) :
    Nat.card { hash : UInt256 // hash ≤ target } = target.toNat + 1 := by
  rw [← Nat.card_fin (target.toNat + 1)]
  refine Nat.card_congr ⟨fun h => ⟨h.1.toNat, Nat.lt_succ_of_le h.2⟩,
    fun i => ⟨BitVec.ofNat 256 i, ?_⟩, fun h => Subtype.ext (by simp), fun i => Fin.ext ?_⟩
  · rw [BitVec.le_def, BitVec.toNat_ofNat]
    exact (Nat.mod_le _ _).trans (Nat.le_of_lt_succ i.isLt)
  · exact (BitVec.toNat_ofNat _ _).trans (Nat.mod_eq_of_lt (i.isLt.trans_le target.isLt))

/-- The work of a block is the number of hashes for each one that would do, and is not zero. -/
theorem getBlockProof_eq (net : Network) (hash : UInt256) (nBits : UInt32)
    (hcheck : checkProofOfWork (consensusParams net) hash nBits) :
    (getBlockProof nBits).toNat =
      2 ^ 256 / Nat.card { hash // checkProofOfWork (consensusParams net) hash nBits } ∧
      getBlockProof nBits ≠ 0 := by
  have hlimit : (consensusParams net).powLimit.toNat < 2 ^ 255 := by cases net <;> decide
  simp only [checkProofOfWork, Bool.and_eq_true, Bool.not_eq_true', Bool.or_eq_false_iff,
    decide_eq_false_iff_not, gt_iff_lt, BitVec.not_lt] at hcheck ⊢
  obtain ⟨⟨⟨⟨hnegative, hzero⟩, hoverflow⟩, hle⟩, -⟩ := hcheck
  simp only [getBlockProof, hnegative, hoverflow, hzero, hle, decide_false, Bool.or_self,
    Bool.false_eq_true, if_false, not_false_eq_true, and_self, true_and, card_le_target]
  generalize (setCompact nBits).target = target at *
  rw [BitVec.le_def] at hle
  have hsucc : (target + 1).toNat = target.toNat + 1 := by
    rw [BitVec.toNat_add]
    exact Nat.mod_eq_of_lt (by simp; omega)
  have hdiv : (2 ^ 256 - 1 - target.toNat) / (target.toNat + 1) + 1 =
      2 ^ 256 / (target.toNat + 1) := by
    rw [← Nat.add_div_right _ (by omega)]
    congr 1
    omega
  have hpos : target.toNat ≠ 0 := fun h => hzero (BitVec.toNat_inj.mp h)
  have hlt : 2 ^ 256 / (target.toNat + 1) < 2 ^ 256 := Nat.div_lt_self (by decide) (by omega)
  have hproof : (~~~target / (target + 1) + 1).toNat = 2 ^ 256 / (target.toNat + 1) := by
    rw [BitVec.toNat_add, BitVec.toNat_udiv, BitVec.toNat_not, hsucc]
    exact (Nat.mod_eq_of_lt (hdiv.trans_lt hlt)).trans hdiv
  refine ⟨hproof, fun h => ?_⟩
  rw [h, ← hdiv] at hproof
  exact absurd hproof.symm (Nat.succ_ne_zero _)

theorem getBlockProof_eq_lowest : (getBlockProof 0x1e0fffff).toNat = 2 ^ 256 /
    Nat.card { hash // checkProofOfWork mainParams hash 0x1e0fffff } ∧
      getBlockProof 0x1e0fffff ≠ 0 :=
  getBlockProof_eq .main 0 0x1e0fffff (by decide)

variable [CCoinsView β] (env : ConnectEnv) (block : CBlock)

def checkBlockHeader : Except DoS Unit :=
  if !checkProofOfWork env.params block.hash block.nBits then
    .error (invalid 50 "high-hash")
  else if (block.nTime.toNat : ℤ) > env.adjustedTime + 2 * 60 * 60 then
    .error (invalid 0 "time-too-new")
  else .ok ()

def checkMerkleRoot : Except DoS Unit :=
  let (hashMerkleRoot2, mutated) := env.blockMerkleRoot block.vtx
  if block.hashMerkleRoot ≠ hashMerkleRoot2 then
    .error (invalid 100 "bad-txnmrklroot")
  else if mutated then .error (invalid 100 "bad-txns-duplicate")
  else .ok ()

def CBlock.getSerializeSize : ℕ :=
  (80 + (writeVector (fun tx : CTransaction => tx.serialize) block.vtx).length) % 2 ^ 32

def checkBlockSize : Except DoS Unit :=
  if block.vtx = [] ∨ block.vtx.length > maxBlockSize true ∨
      block.getSerializeSize > maxBlockSize true then
    .error (invalid 100 "bad-blk-length")
  else .ok ()

def checkCoinbase : List CTransaction → Except DoS Unit
  | [] => .error (invalid 100 "bad-cb-missing")
  | coinbase :: rest =>
    if !coinbase.isCoinBase then .error (invalid 100 "bad-cb-missing")
    else if rest.any fun tx => tx.isCoinBase then
      .error (invalid 100 "bad-cb-multiple")
    else .ok ()

def conflictsWithLock (tx : CTransaction) : Bool :=
  tx.vin.any fun txin =>
    match env.getLockedOutPointTxHash txin.prevout with
    | some hashLocked => hashLocked ≠ tx.hash
    | none => false

def checkTransactionLocks : Except DoS Unit :=
  if env.filtersLockedOutPoints && block.vtx.any fun tx =>
      !tx.isCoinBase && conflictsWithLock env tx then
    .error (invalid 0 "conflict-tx-lock")
  else .ok ()

def checkTransactions : List CTransaction → Except DoS Unit
  | [] => .ok ()
  | tx :: rest => do
      checkTransaction tx
      checkTransactions rest

def getLegacySigOpCount (tx : CTransaction) : UInt32 :=
  let nSigOps := tx.vin.foldl
    (fun nSigOps txin => nSigOps + getSigOpCount false txin.scriptSig) 0
  tx.vout.foldl (fun nSigOps txout => nSigOps + getSigOpCount false txout.scriptPubKey) nSigOps

def checkBlockSigOps : Except DoS Unit :=
  let nSigOps := block.vtx.foldl
    (fun nSigOps tx => nSigOps + getLegacySigOpCount tx) 0
  if nSigOps.toNat > maxBlockSigOps true then
    .error (invalid 100 "bad-blk-sigops")
  else .ok ()

def checkBlock : Except DoS Unit := do
  checkBlockHeader env block
  checkMerkleRoot env block
  checkBlockSize block
  checkCoinbase block.vtx
  checkTransactionLocks env block
  checkTransactions block.vtx
  checkBlockSigOps block

def coinbaseMaturity : ℤ := 100

/-- One iteration of the loop of `CheckTxInputs`, which adds the value of the
coin. -/
def addInput (nSpendHeight : ℕ) (coin : Coin) (nValueIn : CAmount) : ConnectM β CAmount :=
  if coin.isSpent then throw (.exception (.assertFailed "!coin.IsSpent()"))
  else if coin.fCoinBase &&
      (nSpendHeight : ℤ) - coin.nHeight.toNat < coinbaseMaturity then
    throw (.rejected (invalid 0 "bad-txns-premature-spend-of-coinbase"))
  else if !moneyRange coin.out.nValue || !moneyRange (nValueIn + coin.out.nValue) then
    throw (.rejected (invalid 100 "bad-txns-inputvalues-outofrange"))
  else pure (nValueIn + coin.out.nValue)

def checkTxInputsLoop (nSpendHeight : ℕ) : List CTxIn → CAmount → ConnectM β CAmount
  | [], nValueIn => pure nValueIn
  | txin :: rest, nValueIn => do
      let coin ← viewCall (accessCoin txin.prevout)
      let nValueIn ← addInput nSpendHeight coin nValueIn
      checkTxInputsLoop nSpendHeight rest nValueIn

variable (tx : CTransaction)

def valueOut : ConnectM β CAmount :=
  match tx.getValueOut with
  | some nValueOut => pure nValueOut
  | none => throw
      (.runtimeError "CTransaction::GetValueOut(): value out of range")

def checkFee (nValueIn nValueOut : CAmount) : ConnectM β Unit :=
  if nValueIn < nValueOut then
    throw (.rejected (invalid 100 "bad-txns-in-belowout"))
  else if nValueIn - nValueOut < 0 then
    throw (.rejected (invalid 100 "bad-txns-fee-negative"))
  else if !moneyRange (nValueIn - nValueOut) then
    throw (.rejected (invalid 100 "bad-txns-fee-outofrange"))
  else pure ()

def checkTxInputs (nSpendHeight : ℕ) : ConnectM β Unit := do
  if ← viewCall (haveInputs tx) then do
    let nValueIn ← checkTxInputsLoop nSpendHeight tx.vin 0
    let nValueOut ← valueOut tx
    checkFee nValueIn nValueOut
  else throw (.rejected ⟨0, 0, ""⟩)

def checkImages : ConnectM β Unit :=
  if tx.vout.any fun txout => txout.imgbase64.length > 14000000 then
    throw .failed
  else pure ()

def accessCoins : List CTxIn → CacheM β (List Coin)
  | [] => pure []
  | txin :: rest => do
      let coin ← accessCoin txin.prevout
      let coins ← accessCoins rest
      pure (coin :: coins)

def getSpendHeight : ConnectM β ℕ := do
  let best ← viewCall getBestBlock
  pure (env.blockHeight best + 1)

def checkInputs : ConnectM β Unit := do
  let nSpendHeight ← getSpendHeight env
  checkTxInputs tx nSpendHeight
  checkImages tx
  let coins ← viewCall (accessCoins tx.vin)
  liftCheck (env.verifyScripts tx coins)

def getP2SHSigOpCountLoop : List CTxIn → UInt32 → CacheM β UInt32
  | [], nSigOps => pure nSigOps
  | txin :: rest, nSigOps => do
      let coin ← accessCoin txin.prevout
      if coin.isSpent then throw (.assertFailed "!coin.IsSpent()")
      else
        getP2SHSigOpCountLoop rest (if isPayToScriptHash coin.out.scriptPubKey then
            nSigOps + getP2SHSigOps coin.out.scriptPubKey txin.scriptSig
          else nSigOps)

def checkSigOps (nSigOps : UInt32) : ConnectM β Unit :=
  if nSigOps.toNat > maxBlockSigOps env.fDIP0001Active then
    throw (.rejected (invalid 100 "bad-blk-sigops"))
  else pure ()

def addP2SHSigOps (nSigOps : UInt32) : ConnectM β UInt32 :=
  if block.nTime.toNat ≥ 1333238400 then do
    let count ← viewCall (getP2SHSigOpCountLoop tx.vin 0)
    checkSigOps env (nSigOps + count)
    pure (nSigOps + count)
  else pure nSigOps

/-- The sums that the loop carries. -/
structure BlockTotals where
  nFees : CAmount
  nSigOps : UInt32

/-- What the loop does for a transaction that is not a coinbase before its
coins are updated. -/
def checkSpends (totals : BlockTotals) : ConnectM β BlockTotals := do
  if ← viewCall (haveInputs tx) then do
    let coins ← viewCall (accessCoins tx.vin)
    if env.sequenceLocks tx (coins.map fun coin => coin.nHeight.toNat) then do
      let nSigOps ← addP2SHSigOps env block tx totals.nSigOps
      let nValueIn ← viewCall (getValueIn tx)
      let nValueOut ← valueOut tx
      checkInputs env tx
      pure ⟨totals.nFees + (nValueIn - nValueOut), nSigOps⟩
    else throw (.rejected (invalid 100 "bad-txns-nonfinal"))
  else throw (.rejected (invalid 100 "bad-txns-inputs-missingorspent"))

def checkConnect (totals : BlockTotals) : ConnectM β BlockTotals :=
  if tx.isCoinBase then pure totals else checkSpends env block tx totals

variable (pindex : CBlockIndex)

def connectTransaction (tx : CTransaction) (totals : BlockTotals) :
    ConnectM β (BlockTotals × CTxUndo) := do
  let nSigOps := totals.nSigOps + getLegacySigOpCount tx
  checkSigOps env nSigOps
  let totals ← checkConnect env block tx ⟨totals.nFees, nSigOps⟩
  let txundo ← viewCall (updateCoins tx pindex.nHeight)
  pure (totals, txundo)

def connectLoop (env : ConnectEnv) (block : CBlock) (pindex : CBlockIndex) :
    List CTransaction → BlockTotals → ConnectM β (BlockTotals × List CTxUndo)
  | [], totals => pure (totals, [])
  | tx :: rest, totals => do
      let (totals, txundo) ← connectTransaction env block pindex tx totals
      let (totals, txundos) ← connectLoop env block pindex rest totals
      pure (totals, txundo :: txundos)

def hashBIP30First : UInt256 :=
  0x00000000000a4d0a398161ffc163c503763b1f4360639393e0e4c8e300e0caec

def hashBIP30Second : UInt256 :=
  0x00000000000743f190a18c5577a3c2d2a1f610ae9601ac046a38084ccb7cd721

/-- `fEnforceBIP30`: off for two old blocks, and on the chain with the known
block at `BIP34Height`. -/
def enforceBIP30 : Bool :=
  !(pindex.nHeight = 91842 && pindex.hash = hashBIP30First ||
      pindex.nHeight = 91880 && pindex.hash = hashBIP30Second) &&
    env.hashBIP34Ancestor ≠ some env.params.bip34Hash

def haveOutputs (hash : UInt256) : ℕ → ℕ → CacheM β Bool
  | 0, _ => pure false
  | remaining + 1, o => do
      if ← haveCoin ⟨hash, UInt32.ofNat o⟩ then pure true
      else haveOutputs hash remaining (o + 1)

def checkBIP30Loop : List CTransaction → ConnectM β Unit
  | [] => pure ()
  | tx :: rest => do
      if ← viewCall (haveOutputs tx.hash tx.vout.length 0) then
        throw (.rejected (invalid 100 "bad-txns-BIP30"))
      else checkBIP30Loop rest

def checkBIP30 : ConnectM β Unit :=
  if enforceBIP30 env pindex then checkBIP30Loop block.vtx else pure ()

def checkReward (nFees : CAmount) : ConnectM β Unit :=
  let blockReward := nFees +
    getBlockSubsidy env.params env.nPrevBits (pindex.nHeight - 1) false
  match block.vtx with
  | [] => throw .failed
  | coinbase :: _ =>
    match isBlockValueValid env.params env.node coinbase pindex.nHeight blockReward with
    | none => throw
        (.runtimeError "CTransaction::GetValueOut(): value out of range")
    | some (.error _) => throw (.rejected (invalid 0 "bad-cb-amount"))
    | some (.ok ()) =>
      if !env.isBlockPayeeValid coinbase pindex.nHeight blockReward then
        throw (.rejected (invalid 0 "bad-cb-payee"))
      else pure ()

/-- `ConnectBlock` of a block that is not the genesis block, once the view is
known to be at its parent. -/
def connectTransactions : ConnectM β CBlockUndo := do
  checkBIP30 env block pindex
  let (totals, txundos) ← connectLoop env block pindex block.vtx ⟨0, 0⟩
  checkReward env block pindex totals.nFees
  viewCall (setBestBlock pindex.hash)
  pure ⟨txundos.tail⟩

def connectBlock : ConnectM β CBlockUndo := do
  liftCheck (checkBlock env block)
  let best ← viewCall getBestBlock
  if pindex.hashPrev ≠ best then
    throw (.exception (.assertFailed "hashPrevBlock == view.GetBestBlock()"))
  else if block.hash = env.hashGenesisBlock then do
    viewCall (setBestBlock pindex.hash)
    pure ⟨[]⟩
  else connectTransactions env block pindex

end ImageCoin
