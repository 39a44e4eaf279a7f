import ImageCoin.Masternode
import ImageCoin.MapEntries
import ImageCoin.StepRuns

/-!
# The key pool of the wallet

Keys are made ahead of their use: `setInternalKeyPool` and `setExternalKeyPool` hold the
indices of the keys that can be handed out, and the wallet database has a record for
each.  A `CReserveKey` takes an index out of its set until the key is kept or returned.

The wallet has a database file that can be written; a thrown error ends a run.
-/

namespace ImageCoin.KeyPool

open MapEntries

def isValid (vchPubKey : CPubKey) : Bool := !List.isEmpty vchPubKey

/-- What makes keys: `GenerateNewKey` returns a valid key that the wallet does not have,
given the identifiers of those that it has; identifiers do not run out. -/
structure KeyGenerator (CKeyID : Type) where
  getID : CPubKey → CKeyID
  newKey : List CKeyID → Bool → CPubKey
  newKey_valid : ∀ keys fInternal, isValid (newKey keys fInternal)
  newKey_fresh : ∀ keys fInternal, getID (newKey keys fInternal) ∉ keys

structure CKeyPool where
  vchPubKey : CPubKey := []
  fInternal : Bool := false
deriving DecidableEq

/-- `nIndex` is -1 while nothing is reserved. -/
structure CReserveKey where
  nIndex : ℤ := -1
  vchPubKey : CPubKey := []
  fInternal : Bool := false
deriving DecidableEq

inductive KeyPoolError where
  /-- `ReserveKeyFromKeyPool`: "read failed" -/
  | readFailed
  /-- "unknown key in key pool" -/
  | unknownKey
  /-- "keypool entry misclassified" -/
  | misclassified
  /-- The assertion that the key is valid failed. -/
  | invalidKey
deriving DecidableEq

structure CWallet (CKeyID : Type) where
  fHDEnabled : Bool
  /-- `IsLocked(true)` -/
  fLocked : Bool := false
  /-- `-keypool` -/
  nKeyPool : ℤ := 1000
  setInternalKeyPool : Finset ℤ := ∅
  setExternalKeyPool : Finset ℤ := ∅
  /-- The records `pool` of the wallet database. -/
  pool : Map ℤ CKeyPool := ∅
  /-- The identifiers of the keys of the wallet. -/
  keys : List CKeyID := []
  reserveKeys : Map ℕ CReserveKey := ∅
  -- the keys that were kept, which is history
  kept : List CPubKey := []

namespace CWallet

variable {CKeyID : Type} [DecidableEq CKeyID] (gen : KeyGenerator CKeyID) (w : CWallet CKeyID)
  (fInternal : Bool)

def generateNewKey : CPubKey × CWallet CKeyID :=
  let vchPubKey := gen.newKey w.keys fInternal
  (vchPubKey, { w with keys := gen.getID vchPubKey :: w.keys })

variable (kpSize : UInt32)

def nTargetSize : ℤ :=
  if 0 < kpSize then kpSize.toNat else max w.nKeyPool 0 % 2 ^ 32

def missing (setKeyPool : Finset ℤ) : ℕ :=
  (max (max (w.nTargetSize kpSize) 1 - setKeyPool.card) 0).toNat

def missingExternal : ℕ := w.missing kpSize w.setExternalKeyPool

def missingInternal : ℕ :=
  -- no extra internal keys without HD
  if w.fHDEnabled then w.missing kpSize w.setInternalKeyPool else 0

def nEnd : ℤ :=
  let nEnd := if h : w.setInternalKeyPool.Nonempty then w.setInternalKeyPool.max' h + 1 else 1
  if h : w.setExternalKeyPool.Nonempty then max nEnd (w.setExternalKeyPool.max' h + 1) else nEnd

def setKeyPool : Finset ℤ :=
  if fInternal then w.setInternalKeyPool else w.setExternalKeyPool

def withKeyPool (setKeyPool : Finset ℤ) : CWallet CKeyID :=
  if fInternal then { w with setInternalKeyPool := setKeyPool }
  else { w with setExternalKeyPool := setKeyPool }

def addKey : CWallet CKeyID :=
  let (vchPubKey, w') := w.generateNewKey gen fInternal
  { w' with pool := w'.pool.insert w.nEnd ⟨vchPubKey, fInternal⟩ }.withKeyPool fInternal
    (insert w.nEnd (w.setKeyPool fInternal))

def addKeys (missingInternal : ℕ) : ℕ → CWallet CKeyID → CWallet CKeyID
  | 0, w => w
  | i + 1, w => addKeys missingInternal i (w.addKey gen (decide (i < missingInternal)))

def topUpKeyPool : CWallet CKeyID :=
  if w.fLocked then w
  else addKeys gen (w.missingInternal kpSize)
    (w.missingInternal kpSize + w.missingExternal kpSize) w

/-- From "Get the oldest key" on. -/
def takeKey : Except KeyPoolError (CWallet CKeyID × ℤ × CKeyPool) :=
  if h : (w.setKeyPool fInternal).Nonempty then
    let nIndex := (w.setKeyPool fInternal).min' h
    match w.pool.lookup nIndex with
    | none => .error .readFailed
    | some keypool =>
      if gen.getID keypool.vchPubKey ∉ w.keys then .error .unknownKey
      else if keypool.fInternal ≠ fInternal then .error .misclassified
      else if !isValid keypool.vchPubKey then .error .invalidKey
      else .ok (w.withKeyPool fInternal ((w.setKeyPool fInternal).erase nIndex), nIndex, keypool)
  else .ok (w, -1, {})

/-- The pool is filled up if the wallet is not locked, which `TopUpKeyPool` checks again. -/
def reserveKeyFromKeyPool : Except KeyPoolError (CWallet CKeyID × ℤ × CKeyPool) :=
  (w.topUpKeyPool gen 0).takeKey gen (fInternal && w.fHDEnabled)

def keepKey (nIndex : ℤ) : CWallet CKeyID :=
  { w with pool := w.pool.erase nIndex }

def returnKey (nIndex : ℤ) (fInternal : Bool) : CWallet CKeyID :=
  w.withKeyPool fInternal (insert nIndex (w.setKeyPool fInternal))

def getKeyFromPool : Except KeyPoolError (CWallet CKeyID × Option CPubKey) := do
  let (w', nIndex, keypool) ← w.reserveKeyFromKeyPool gen fInternal
  if nIndex = -1 then
    if w'.fLocked then return (w', none)
    let (vchPubKey, w'') := w'.generateNewKey gen fInternal
    return (w'', some vchPubKey)
  return (w'.keepKey nIndex, some keypool.vchPubKey)

def reserveKey (j : ℕ) : CReserveKey := (w.reserveKeys.lookup j).getD {}

variable (j : ℕ)

def withReserveKey (reservekey : CReserveKey) : CWallet CKeyID :=
  { w with reserveKeys := w.reserveKeys.insert j reservekey }

def getReservedKey (fInternalIn : Bool) : Except KeyPoolError (CWallet CKeyID) :=
  if (w.reserveKey j).nIndex = -1 then do
    let (w', nIndex, keypool) ← w.reserveKeyFromKeyPool gen fInternalIn
    if nIndex = -1 then return w'
    return w'.withReserveKey j ⟨nIndex, keypool.vchPubKey, keypool.fInternal⟩
  else if isValid (w.reserveKey j).vchPubKey then .ok w
  else .error .invalidKey

def keepReservedKey : CWallet CKeyID :=
  let reservekey := w.reserveKey j
  if reservekey.nIndex = -1 then w
  else
    { w.keepKey reservekey.nIndex with kept := reservekey.vchPubKey :: w.kept }.withReserveKey j
      { reservekey with nIndex := -1, vchPubKey := [] }

def returnReservedKey : CWallet CKeyID :=
  let reservekey := w.reserveKey j
  if reservekey.nIndex = -1 then w
  else (w.returnKey reservekey.nIndex reservekey.fInternal).withReserveKey j
    { reservekey with nIndex := -1, vchPubKey := [] }

def handOut : Except KeyPoolError (CWallet CKeyID) := do
  let (w', result) ← w.getKeyFromPool gen fInternal
  return { w' with kept := result.toList ++ w'.kept }

end CWallet

inductive KeyPoolOp where
  | topUpKeyPool (kpSize : UInt32)
  | getReservedKey (j : ℕ) (fInternal : Bool)
  | keepKey (j : ℕ)
  | returnKey (j : ℕ)
  | getKeyFromPool (fInternal : Bool)
  | lock
  | unlock

def CWallet.step {CKeyID : Type} [DecidableEq CKeyID] (gen : KeyGenerator CKeyID)
    (w : CWallet CKeyID) : KeyPoolOp → Option (CWallet CKeyID)
  | .topUpKeyPool kpSize => some (w.topUpKeyPool gen kpSize)
  | .getReservedKey j fInternal => (w.getReservedKey gen j fInternal).toOption
  | .keepKey j => some (w.keepReservedKey j)
  | .returnKey j => some (w.returnReservedKey j)
  | .getKeyFromPool fInternal => (w.handOut gen fInternal).toOption
  | .lock => some { w with fLocked := true }
  | .unlock => some { w with fLocked := false }

end ImageCoin.KeyPool
