import ImageCoin.Coins

/-!
# Connecting and disconnecting blocks

The effect of a block on the coins: `UpdateCoins` with the undo data that it
records, and `DisconnectBlock`, which takes the block back.  The address and
spent indexes are off.
-/

namespace ImageCoin

open CCoinsViewCache

/-- A block; `hash` is the cached hash of its header. -/
structure CBlock where
  nVersion : Int32
  hashMerkleRoot : UInt256
  nTime : UInt32
  nBits : UInt32
  vtx : List CTransaction
  hash : UInt256
  deriving DecidableEq

/-- A block that has a parent, in the tree of known blocks. -/
structure CBlockIndex where
  hash : UInt256
  hashPrev : UInt256
  nHeight : ℕ
  hash_ne_zero : hash ≠ 0
  hashPrev_ne_zero : hashPrev ≠ 0
  nHeight_lt : nHeight < 2 ^ 31

structure CTxUndo where
  vprevout : List Coin
  deriving DecidableEq

/-- The undo data of all transactions but the coinbase. -/
structure CBlockUndo where
  vtxundo : List CTxUndo
  deriving DecidableEq

inductive DisconnectResult where
  | ok
  | unclean
  | failed
  deriving DecidableEq, Repr

section
variable {β : Type} [CCoinsView β]

def spendInputs : List CTxIn → CacheM β (List Coin)
  | [] => pure []
  | txin :: rest => do
      match ← spendCoin txin.prevout with
      | none => throw (.assertFailed "is_spent")
      | some coin => do
          let coins ← spendInputs rest
          pure (coin :: coins)

def markInputsSpent (tx : CTransaction) : CacheM β (List Coin) :=
  if tx.isCoinBase then pure [] else spendInputs tx.vin

def updateCoins (tx : CTransaction) (nHeight : ℕ) : CacheM β CTxUndo := do
  let vprevout ← markInputsSpent tx
  addCoins tx nHeight
  pure ⟨vprevout⟩

def updateCoinsLoop (nHeight : ℕ) : List CTransaction → CacheM β (List CTxUndo)
  | [] => pure []
  | tx :: rest => do
      let txundo ← updateCoins tx nHeight
      let txundos ← updateCoinsLoop nHeight rest
      pure (txundo :: txundos)

variable (block : CBlock) (pindex : CBlockIndex)

/-- Apply all transactions of a block.  What the first one spends goes to a
dummy. -/
def connectCoins : CacheM β CBlockUndo := do
  let txundos ← updateCoinsLoop pindex.nHeight block.vtx
  setBestBlock pindex.hash
  pure ⟨txundos.tail⟩

/-- Undo data without height and coinbase flag takes them from another output
of the same transaction. -/
def undoMetadata (undo : Coin) (out : COutPoint) : CacheM β (Option Coin) :=
  if undo.nHeight = 0 then do
    let alternate ← accessByTxid out.hash
    if alternate.isSpent then pure none
    else
      pure (some { undo with
        nHeight := alternate.nHeight, fCoinBase := alternate.fCoinBase })
  else pure (some undo)

def applyTxInUndo (undo : Coin) (out : COutPoint) : CacheM β DisconnectResult := do
  let overwrites ← haveCoin out
  match ← undoMetadata undo out with
  | none => pure .failed
  | some undo => do
      addCoin out undo undo.fCoinBase
      pure (if overwrites then .unclean else .ok)

def matchesOutput (out : CTxOut) (nHeight : ℕ) (isCoinbase : Bool) : Option Coin → Bool
  | none => false
  | some coin => out = coin.out && nHeight = coin.nHeight.toNat &&
      isCoinbase = coin.fCoinBase

/-- Take back the outputs of a transaction; the result says whether all of them
were there and matched. -/
def disconnectOutputs (hash : UInt256) (nHeight : ℕ) (isCoinbase : Bool) :
    ℕ → List CTxOut → CacheM β Bool
  | _, [] => pure true
  | o, out :: rest =>
    if isUnspendable out.scriptPubKey then
      disconnectOutputs hash nHeight isCoinbase (o + 1) rest
    else do
      let coin ← spendCoin ⟨hash, UInt32.ofNat o⟩
      let fClean ← disconnectOutputs hash nHeight isCoinbase (o + 1) rest
      pure (matchesOutput out nHeight isCoinbase coin && fClean)

def restoreInputs : List (CTxIn × Coin) → Bool → CacheM β (Option Bool)
  | [], fClean => pure (some fClean)
  | (txin, undo) :: rest, fClean => do
      match ← applyTxInUndo undo txin.prevout with
      | .failed => pure none
      | .unclean => restoreInputs rest false
      | .ok => restoreInputs rest fClean

def disconnectTransaction (nHeight : ℕ) (tx : CTransaction)
    (txundo : Option CTxUndo) (fClean : Bool) : CacheM β (Option Bool) := do
  let outputsClean ← disconnectOutputs tx.hash nHeight tx.isCoinBase 0 tx.vout
  match txundo with
  | none => pure (some (fClean && outputsClean))
  | some txundo =>
    if txundo.vprevout.length ≠ tx.vin.length then pure none
    else
      restoreInputs (tx.vin.zip txundo.vprevout).reverse (fClean && outputsClean)

def disconnectLoop (nHeight : ℕ) :
    List (CTransaction × Option CTxUndo) → Bool → CacheM β (Option Bool)
  | [], fClean => pure (some fClean)
  | (tx, txundo) :: rest, fClean => do
      match ← disconnectTransaction nHeight tx txundo fClean with
      | none => pure none
      | some fClean => disconnectLoop nHeight rest fClean

def undoBlock (blockUndo : CBlockUndo) : CacheM β DisconnectResult :=
  if blockUndo.vtxundo.length + 1 ≠ block.vtx.length then pure .failed
  else do
    let undos := none :: blockUndo.vtxundo.map some
    match ← disconnectLoop pindex.nHeight (block.vtx.zip undos).reverse true with
    | none => pure .failed
    | some fClean => do
        setBestBlock pindex.hashPrev
        pure (if fClean then .ok else .unclean)

/-- `DisconnectBlock`; undo data that is missing or cannot be read is `none`. -/
def disconnectBlock (blockUndo : Option CBlockUndo) : CacheM β DisconnectResult := do
  let best ← getBestBlock
  if pindex.hash ≠ best then
    throw (.assertFailed "pindex->GetBlockHash() == view.GetBestBlock()")
  else
    match blockUndo with
    | none => pure .failed
    | some blockUndo => undoBlock block pindex blockUndo

end
end ImageCoin
