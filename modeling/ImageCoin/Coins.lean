import ImageCoin.Transaction
import Mathlib.Data.List.AList

/-!
# Coins and their caches

`coins.cpp` and the coin database of `txdb.cpp`.  A view is a state with the four virtual
methods of `CCoinsView`; a cache is a view on top of any other, so caches can be stacked.
-/

namespace ImageCoin

structure Coin where
  out : CTxOut
  fCoinBase : Bool
  nHeight : BitVec 31
  deriving DecidableEq

def Coin.empty : Coin := ⟨CTxOut.null, false, 0⟩

def Coin.ofOut (out : CTxOut) (nHeight : ℕ) (fCoinBase : Bool) : Coin :=
  ⟨out, fCoinBase, BitVec.ofNat 31 nHeight⟩

def Coin.isSpent (coin : Coin) : Bool := coin.out.isNull

def mallocUsage (alloc : ℕ) : ℕ :=
  if alloc = 0 then 0 else (alloc + 31) / 16 * 16

def Coin.dynamicMemoryUsage (coin : Coin) : UInt64 :=
  let size := coin.out.scriptPubKey.length
  UInt64.ofNat (mallocUsage (if size ≤ 28 then 0 else size))

/-- A cached coin with the `DIRTY` and `FRESH` flags. -/
structure CCoinsCacheEntry where
  coin : Coin := Coin.empty
  dirty : Bool := false
  fresh : Bool := false
  deriving DecidableEq

abbrev CCoinsMap := AList fun _ : COutPoint => CCoinsCacheEntry

/-- Exceptions and failed assertions. -/
inductive CoinsError where
  | logicError (what : String)
  | assertFailed (condition : String)
  deriving DecidableEq, Repr

/-- `CCoinsView`; lookups may change the state of a view that caches. -/
class CCoinsView (σ : Type) where
  getCoin : COutPoint → EStateM CoinsError σ (Option Coin)
  haveCoin : COutPoint → EStateM CoinsError σ Bool
  getBestBlock : EStateM CoinsError σ UInt256
  batchWrite : CCoinsMap → UInt256 → EStateM CoinsError σ Bool

structure CCoinsViewCache (β : Type) where
  base : β
  hashBlock : UInt256 := 0
  cacheCoins : CCoinsMap := ∅
  cachedCoinsUsage : UInt64 := 0

open CCoinsViewCache

abbrev CacheM (β : Type) := EStateM CoinsError (CCoinsViewCache β)

def onBase {β α : Type} (call : EStateM CoinsError β α) : CacheM β α :=
  fun view =>
    match call view.base with
    | .ok a base => .ok a { view with base }
    | .error e base => .error e { view with base }

namespace CCoinsViewCache

variable {β : Type} (outpoint : COutPoint)

def setEntry (entry : CCoinsCacheEntry) : CacheM β Unit :=
  modify fun view =>
    { view with cacheCoins := view.cacheCoins.insert outpoint entry }

def eraseEntry : CacheM β Unit :=
  modify fun view => { view with cacheCoins := view.cacheCoins.erase outpoint }

def addUsage (coin : Coin) : CacheM β Unit :=
  modify fun view => { view with
    cachedCoinsUsage := view.cachedCoinsUsage + coin.dynamicMemoryUsage }

def subUsage (coin : Coin) : CacheM β Unit :=
  modify fun view => { view with
    cachedCoinsUsage := view.cachedCoinsUsage - coin.dynamicMemoryUsage }

def addCoin (coin : Coin) (possibleOverwrite : Bool) : CacheM β Unit :=
  if coin.isSpent then throw (.assertFailed "!coin.IsSpent()")
  else if isUnspendable coin.out.scriptPubKey then pure ()
  else do
    let found := (← get).cacheCoins.lookup outpoint
    -- A missing entry is emplaced empty, and an empty coin uses no memory.
    let entry := found.getD {}
    subUsage entry.coin
    if !possibleOverwrite && !entry.coin.isSpent then
      throw (.logicError "Adding new coin that replaces non-pruned entry")
    else do
      let fresh := !possibleOverwrite && !entry.dirty
      setEntry outpoint ⟨coin, true, entry.fresh || fresh⟩
      addUsage coin

def clearEntry (entry : CCoinsCacheEntry) : CacheM β Unit :=
  if entry.fresh then eraseEntry outpoint
  else setEntry outpoint ⟨Coin.empty, true, entry.fresh⟩

def setBestBlock (hashBlock : UInt256) : CacheM β Unit :=
  modify fun view => { view with hashBlock }

def uncache : CacheM β Unit := do
  match (← get).cacheCoins.lookup outpoint with
  | none => pure ()
  | some entry =>
    if !entry.dirty && !entry.fresh then do
      subUsage entry.coin
      eraseEntry outpoint
    else pure ()

def batchWriteEntry (child : CCoinsCacheEntry) : CacheM β Unit :=
  if child.dirty then do
    match (← get).cacheCoins.lookup outpoint with
    | none =>
      if child.fresh && child.coin.isSpent then pure ()
      else do
        setEntry outpoint ⟨child.coin, true, child.fresh⟩
        addUsage child.coin
    | some us =>
      if child.fresh && !us.coin.isSpent then
        throw (.logicError ("FRESH flag misapplied to cache entry for " ++
          "base transaction with spendable outputs"))
      else if us.fresh && child.coin.isSpent then do
        subUsage us.coin
        eraseEntry outpoint
      else do
        subUsage us.coin
        setEntry outpoint ⟨child.coin, true, us.fresh⟩
        addUsage child.coin
  else pure ()

def batchWriteLoop : List (Sigma fun _ : COutPoint => CCoinsCacheEntry) → CacheM β Unit
  | [] => pure ()
  | ⟨outpoint, child⟩ :: rest => do
      batchWriteEntry outpoint child
      batchWriteLoop rest

def batchWrite (mapCoins : CCoinsMap) (hashBlockIn : UInt256) : CacheM β Bool := do
  batchWriteLoop mapCoins.entries
  setBestBlock hashBlockIn
  pure true

variable [CCoinsView β]

def fetchCoin (outpoint : COutPoint) : CacheM β (Option CCoinsCacheEntry) := do
  match (← get).cacheCoins.lookup outpoint with
  | some entry => pure (some entry)
  | none =>
    match ← onBase (CCoinsView.getCoin outpoint) with
    | none => pure none
    | some tmp => do
        let entry : CCoinsCacheEntry := ⟨tmp, false, tmp.isSpent⟩
        setEntry outpoint entry
        addUsage tmp
        pure (some entry)

def getCoin (outpoint : COutPoint) : CacheM β (Option Coin) := do
  match ← fetchCoin outpoint with
  | none => pure none
  | some entry => pure (if entry.coin.isSpent then none else some entry.coin)

def spendCoin (outpoint : COutPoint) : CacheM β (Option Coin) := do
  match ← fetchCoin outpoint with
  | none => pure none
  | some entry => do
      subUsage entry.coin
      clearEntry outpoint entry
      pure (some entry.coin)

def accessCoin (outpoint : COutPoint) : CacheM β Coin := do
  match ← fetchCoin outpoint with
  | none => pure Coin.empty
  | some entry => pure entry.coin

def haveCoin (outpoint : COutPoint) : CacheM β Bool := do
  match ← fetchCoin outpoint with
  | none => pure false
  | some entry => pure !entry.coin.isSpent

def getBestBlock : CacheM β UInt256 := do
  let view ← get
  if view.hashBlock = 0 then do
    let hashBlock ← onBase CCoinsView.getBestBlock
    setBestBlock hashBlock
    pure hashBlock
  else pure view.hashBlock

def flush : CacheM β Bool := do
  let view ← get
  let fOk ← onBase (CCoinsView.batchWrite view.cacheCoins view.hashBlock)
  modify fun view => { view with cacheCoins := ∅, cachedCoinsUsage := 0 }
  pure fOk

end CCoinsViewCache

instance {β : Type} [CCoinsView β] : CCoinsView (CCoinsViewCache β) where
  getCoin := getCoin
  haveCoin := haveCoin
  getBestBlock := getBestBlock
  batchWrite := batchWrite

section
open CCoinsViewCache
variable {β : Type}

def addCoinsLoop (hash : UInt256) (nHeight : ℕ) (fCoinbase : Bool) : ℕ → List CTxOut → CacheM β Unit
  | _, [] => pure ()
  | i, out :: rest => do
      addCoin ⟨hash, UInt32.ofNat i⟩ (Coin.ofOut out nHeight fCoinbase) fCoinbase
      addCoinsLoop hash nHeight fCoinbase (i + 1) rest

def addCoins (tx : CTransaction) (nHeight : ℕ) : CacheM β Unit :=
  addCoinsLoop tx.hash nHeight tx.isCoinBase 0 tx.vout

variable [CCoinsView β]

def haveInputsLoop : List CTxIn → CacheM β Bool
  | [] => pure true
  | txin :: rest => do
      if ← haveCoin txin.prevout then haveInputsLoop rest else pure false

def haveInputs (tx : CTransaction) : CacheM β Bool :=
  if tx.isCoinBase then pure true else haveInputsLoop tx.vin

def getValueInLoop : List CTxIn → CAmount → CacheM β CAmount
  | [], nResult => pure nResult
  | txin :: rest, nResult => do
      let coin ← accessCoin txin.prevout
      getValueInLoop rest (nResult + coin.out.nValue)

def getValueIn (tx : CTransaction) : CacheM β CAmount :=
  if tx.isCoinBase then pure 0 else getValueInLoop tx.vin 0

def maxOutputsPerBlock : ℕ := 55000000 / 10

def accessByTxidLoop (txid : UInt256) : ℕ → ℕ → CacheM β Coin
  | 0, _ => pure Coin.empty
  | remaining + 1, n => do
      let alternate ← accessCoin ⟨txid, UInt32.ofNat n⟩
      if alternate.isSpent then accessByTxidLoop txid remaining (n + 1)
      else pure alternate

def accessByTxid (txid : UInt256) : CacheM β Coin :=
  accessByTxidLoop txid maxOutputsPerBlock 0

end

/-- How a coin is written to the database and read back. -/
structure CoinCodec where
  Record : Type
  write : Coin → Record
  read : Record → Option Coin

/-- The records of the database, and `DB_BEST_BLOCK`. -/
structure CCoinsViewDB (codec : CoinCodec) where
  records : AList fun _ : COutPoint => codec.Record := ∅
  hashBestChain : Option UInt256 := none

namespace CCoinsViewDB

variable {codec : CoinCodec}

def batchEntry (db : CCoinsViewDB codec) (entry : Sigma fun _ : COutPoint => CCoinsCacheEntry) :
    CCoinsViewDB codec :=
  if entry.2.dirty then
    if entry.2.coin.isSpent then
      { db with records := db.records.erase entry.1 }
    else
      let record := codec.write entry.2.coin
      { db with records := db.records.insert entry.1 record }
  else db

def writeBatch (mapCoins : CCoinsMap) (hashBlock : UInt256)
    (db : CCoinsViewDB codec) : CCoinsViewDB codec :=
  let db := mapCoins.entries.foldl batchEntry db
  if hashBlock = 0 then db else { db with hashBestChain := some hashBlock }

end CCoinsViewDB

instance {codec : CoinCodec} : CCoinsView (CCoinsViewDB codec) where
  getCoin outpoint := do
    -- A record that cannot be read counts as missing.
    pure (((← get).records.lookup outpoint).bind codec.read)
  haveCoin outpoint := do pure ((← get).records.lookup outpoint).isSome
  getBestBlock := do pure ((← get).hashBestChain.getD 0)
  batchWrite mapCoins hashBlock := do
    modify (CCoinsViewDB.writeBatch mapCoins hashBlock)
    pure true

end ImageCoin
