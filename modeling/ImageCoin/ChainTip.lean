import ImageCoin.Compressor
import ImageCoin.CoinsRefinement
import ImageCoin.TransactionWire

/-!
# The chain tip and its storage

`ConnectTip` and `DisconnectTip` work on a cache over `pcoinsTip`, the cache over the coin
database, and keep the undo data of a block until the block is disconnected.
-/

namespace ImageCoin

open ByteStream CCoinsViewCache

/-- How undo data is written and read back; the hash is that of the parent. -/
structure UndoCodec where
  Record : Type
  write : UInt256 → CBlockUndo → Record
  read : UInt256 → Record → Option CBlockUndo

section
variable (ops : PubKeyOps) (hash256 : Bytes → UInt256)

def undoChecksum (hashBlock : UInt256) (undoData : Bytes) : UInt256 :=
  hash256 (serializeUInt256 hashBlock ++ undoData)

def undoWriteToDisk (hashBlock : UInt256) (blockundo : CBlockUndo) : Bytes :=
  blockundo.serialize ops ++
    serializeUInt256 (undoChecksum hash256 hashBlock (blockundo.serialize ops))

/-- The verifier hashes the bytes that were read, so that undo data in an older
format keeps its checksum. -/
def undoReadFromDisk (hashBlock : UInt256) (filein : Bytes) : Option CBlockUndo :=
  match CBlockUndo.unserialize ops filein with
  | .error _ => none
  | .ok (blockundo, rest) =>
    match unserializeUInt256 rest with
    | .error _ => none
    | .ok (hashChecksum, _) =>
      let undoData := filein.take (filein.length - rest.length)
      if hashChecksum ≠ undoChecksum hash256 hashBlock undoData then none
      else some blockundo

end

theorem undoReadFromDisk_undoWriteToDisk (ops : PubKeyOps) (hash256 : Bytes → UInt256)
    (hashBlock : UInt256) {blockundo : CBlockUndo} (hundo : StorableUndo blockundo) :
    undoReadFromDisk ops hash256 hashBlock
      (undoWriteToDisk ops hash256 hashBlock blockundo) = some blockundo := by
  have hdata := reads_blockUndo_unserialize ops hundo (serializeUInt256
    (undoChecksum hash256 hashBlock (blockundo.serialize ops)))
  have hchecksum := reads_unserializeUInt256
    (undoChecksum hash256 hashBlock (blockundo.serialize ops)) []
  rw [List.append_nil] at hchecksum
  simp only [undoReadFromDisk, undoWriteToDisk, hdata, hchecksum]
  simp

structure Storage where
  coins : CoinCodec
  undo : UndoCodec

def readCoinRecord (ops : PubKeyOps) (record : Bytes) : Option Coin :=
  match Coin.unserialize ops record with
  | .ok (coin, _) => some coin
  | .error _ => none

def diskStorage (ops : PubKeyOps) (hash256 : Bytes → UInt256) : Storage where
  coins := ⟨Bytes, Coin.serialize ops, readCoinRecord ops⟩
  undo := ⟨Bytes, undoWriteToDisk ops hash256, undoReadFromDisk ops hash256⟩

def memoryStorage : Storage where
  coins := memoryCodec
  undo := ⟨CBlockUndo, fun _ blockundo => blockundo, fun _ => some⟩

/-- The active chain, tip first and without the genesis block, with the coins at
its tip and the undo data by the hash of the block. -/
structure ChainTip (storage : Storage) where
  pcoinsTip : CCoinsViewCache (CCoinsViewDB storage.coins)
  undoFile : AList fun _ : UInt256 => storage.undo.Record := ∅
  chainActive : List (CBlock × CBlockIndex) := []

section
variable {storage : Storage}

def ChainTip.genesis (storage : Storage) (hashGenesis : UInt256) : ChainTip storage where
  pcoinsTip := { base := {}, hashBlock := hashGenesis }

variable (tip : ChainTip storage)

def ChainTip.coinAt (outpoint : COutPoint) : Option Coin :=
  match CCoinsViewCache.getCoin outpoint tip.pcoinsTip with
  | .ok coin _ => coin
  | .error _ _ => none

abbrev TipM (storage : Storage) := EStateM CoinsError (ChainTip storage)

/-- Work on a `CCoinsViewCache view(pcoinsTip)` that is dropped at the end. -/
def withView {α : Type} (x : CacheM (CCoinsViewCache (CCoinsViewDB storage.coins)) α) :
    TipM storage α := fun tip =>
  match x { base := tip.pcoinsTip } with
  | .ok a view => .ok a { tip with pcoinsTip := view.base }
  | .error e view => .error e { tip with pcoinsTip := view.base }

variable {β : Type} [CCoinsView β]

def assertFlush : CacheM β Unit := do
  let fOk ← flush
  if fOk then pure () else throw (.assertFailed "view.Flush()")

variable (block : CBlock) (pindex : CBlockIndex)

/-- The part of `ConnectBlock` that changes the coins, and the flush after it. -/
def connectView : CacheM β CBlockUndo := do
  let best ← getBestBlock
  if pindex.hashPrev ≠ best then
    throw (.assertFailed "hashPrevBlock == view.GetBestBlock()")
  else do
    let blockundo ← connectCoins block pindex
    assertFlush
    pure blockundo

def disconnectView (blockundo : Option CBlockUndo) : CacheM β DisconnectResult := do
  match ← disconnectBlock block pindex blockundo with
  | .ok => do
      assertFlush
      pure .ok
  | res => pure res

def ChainTip.writeUndo (blockundo : CBlockUndo) : ChainTip storage :=
  match tip.undoFile.lookup pindex.hash with
  | some _ => tip
  | none =>
    let record := storage.undo.write pindex.hashPrev blockundo
    { tip with undoFile := tip.undoFile.insert pindex.hash record }

def ChainTip.readUndo : Option CBlockUndo :=
  (tip.undoFile.lookup pindex.hash).bind (storage.undo.read pindex.hashPrev)

def connectTip : TipM storage Unit := do
  let blockundo ← withView (connectView block pindex)
  modify fun tip =>
    { tip.writeUndo pindex blockundo with
      chainActive := (block, pindex) :: tip.chainActive }

def disconnectTip : TipM storage DisconnectResult := do
  let tip ← get
  match tip.chainActive with
  | [] => throw (.assertFailed "pindexDelete")
  | (block, pindex) :: chain => do
      let res ← withView (disconnectView block pindex (tip.readUndo pindex))
      modify fun tip =>
        { tip with chainActive := if res = .ok then chain else tip.chainActive }
      pure res

def flushStateToDisk : TipM storage Unit := fun tip =>
  match flush tip.pcoinsTip with
  | .ok _ pcoinsTip => .ok () { tip with pcoinsTip }
  | .error e pcoinsTip => .error e { tip with pcoinsTip }

inductive ChainStep where
  | connect (block : CBlock) (pindex : CBlockIndex)
  | disconnect
  | flush

def runStep : ChainStep → TipM storage (List DisconnectResult)
  | .connect block pindex => do
      connectTip block pindex
      pure []
  | .disconnect => do
      let res ← disconnectTip
      pure [res]
  | .flush => do
      flushStateToDisk
      pure []

def runSteps : List ChainStep → TipM storage (List DisconnectResult)
  | [] => pure []
  | step :: rest => do
      let first ← runStep step
      let later ← runSteps rest
      pure (first ++ later)

def withoutFlushes : List ChainStep → List ChainStep
  | [] => []
  | .flush :: rest => withoutFlushes rest
  | step :: rest => step :: withoutFlushes rest

end
end ImageCoin
